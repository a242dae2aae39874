import ClearanceGraph.Proofs.Origin.Difference
import ClearanceGraph.Proofs.Origin.Guarantee

/-! # Orphans — edges that outlive their objects

    Where orphaned edges are to go, an object that a call removes takes its edges with
    it.  What is removed is known (`Plan.Accounts`), and every edge at it that shows is
    looked at once (`Plan.removeEdges_covers`).  A run cannot assert such an edge, since
    it would need the object.

    But an edge that the plan writes already is passed over, also where it was written to
    stay: a dropped edge that falls to another origin with another content is put, and
    outlives its object.  This is the only way (`Call.orphan_shows_iff`). -/

namespace ClearanceGraph

/-! ## What dropping puts -/

namespace Store

variable {s : Store} {t : Instant} {o : OriginId} {f : Fact}

/-- A content is put unless the same shows. -/
theorem exists_putting_iff {k : Content} : (∃ d, s.putting t k = some (some d)) ↔
    ∀ d, s.visible t (.fact k.fact) = some d → (d == .content k) = false := by
  rw [putting]
  cases s.visible t (.fact k.fact) with
  | none => exact ⟨fun _ d hd => (by cases hd), fun _ => ⟨_, rfl⟩⟩
  | some d =>
      dsimp only
      split
      · next heq =>
        constructor
        · rintro ⟨_, h⟩
          cases h
        · intro h
          exact absurd heq (Bool.eq_false_iff.mp (h d rfl))
      · next hne =>
        refine ⟨fun _ d' hd' => ?_, fun _ => ⟨_, rfl⟩⟩
        obtain rfl := Option.some.inj hd'
        exact Bool.eq_false_iff.mpr hne

/-- Dropping a fact puts a content if the latest other origin that keeps it holds one
    that does not show. -/
theorem exists_dropping_iff (hfiled : ∀ r ∈ s.owners f, ∀ k, r.content? f = some k →
    k.fact = f) :
    (∃ d, s.dropping t o f = some (some d)) ↔
      ∃ r k, Plan.survivor? o (s.owners f) = some r ∧ r.content? f = some k ∧
        ∀ d, s.visible t (.fact f) = some d → (d == .content k) = false := by
  rw [dropping]
  cases hsurv : Plan.survivor? o (s.owners f) with
  | none =>
      constructor
      · rintro ⟨d, hd⟩
        cases hv : s.visible t (.fact f) <;> rw [hv] at hd <;> cases hd
      · rintro ⟨r, k, hr, -⟩
        cases hr
  | some r =>
      dsimp only
      -- a survivor has filed the content under the fact, so that is what is put
      have hown : ∀ k, r.content? f = some k → k.fact = f :=
        hfiled r (List.mem_filter.mp (mem_of_lastMax? hsurv)).1
      constructor
      · rintro ⟨d, hd⟩
        obtain ⟨k, hk, hput⟩ := Option.bind_eq_some_iff.mp hd
        refine ⟨r, k, rfl, hk, ?_⟩
        rw [← hown k hk]
        exact exists_putting_iff.mp ⟨d, hput⟩
      · rintro ⟨_, k, hr, hk, hnew⟩
        obtain rfl := Option.some.inj hr
        rw [← hown k hk] at hnew
        obtain ⟨d, hd⟩ := exists_putting_iff.mpr hnew
        exact ⟨d, by rw [hk, Option.bind_some, hd]⟩

end Store

/-! ## Which edges are removed -/

namespace Plan

variable {s : Store} {p q : Plan} {asserted : Table Fact Content}

private theorem removeEdge_written (e : Edge) {k : DocumentKey}
    (h : p.transaction.Writes k) :
    (removeEdge asserted p e).transaction.Writes k := by
  rw [removeEdge]
  split
  · exact h
  · exact Transaction.writes_push.mpr (.inl h)

private theorem removeEdge_writes {e : Edge}
    (hnot : asserted.contains (.edge e.key) = false) :
    (removeEdge asserted p e).transaction.Writes (.fact (.edge e.key)) := by
  rw [removeEdge, hnot, Bool.false_or]
  split
  · next hwritten => exact writes_iff.mp hwritten
  · exact Transaction.writes_push.mpr (.inr ⟨rfl, rfl⟩)

private theorem foldl_removeEdge_writes {e : Edge}
    (hnot : asserted.contains (.edge e.key) = false)
    (es : List Edge) : ∀ {p : Plan}, e ∈ es ∨ p.transaction.Writes (.fact (.edge e.key)) →
      (es.foldl (removeEdge asserted) p).transaction.Writes (.fact (.edge e.key)) := by
  induction es with
  | nil => exact fun h => h.resolve_left List.not_mem_nil
  | cons e' es ih =>
      intro p h
      refine ih ?_
      rcases h with h | h
      · rcases List.mem_cons.mp h with rfl | h
        · exact .inr (removeEdge_writes hnot)
        · exact .inl h
      · exact .inr (removeEdge_written e' h)

/-- **No edge at a removed object is overlooked** that shows and is not asserted. -/
theorem removeEdges_covers (hs : s.Sound) {e : EdgeKey} {d : Document} {r : Reference}
    (hnot : asserted.contains (.edge e) = false) (htouches : e.touches r = true)
    (rs : List Reference) : ∀ {p : Plan}, r ∈ rs → (removeEdges asserted rs p).Gives s q →
      s.visible p.validTime (.fact (.edge e)) = some d →
      q.transaction.Writes (.fact (.edge e)) := by
  induction rs with
  | nil => exact fun hr => absurd hr List.not_mem_nil
  | cons r' rs ih =>
      intro p hr h hd
      obtain ⟨ds, hds, h⟩ := h.of_bind
      obtain rfl := hds.unique (Reading.gives_query _ _ s)
      rcases List.mem_cons.mp hr with rfl | hr
      · have hkey := hs.key_of_visible hd
        rcases d with (x | x | x) | x | x | x <;> simp [Document.key, Content.fact] at hkey
        subst hkey
        have hfound : x ∈ (s.query p.validTime (.touching r)).filterMap Document.edge? :=
          List.mem_filterMap.mpr ⟨_, hs.mem_touching_iff.mpr ⟨x.key, htouches, hd⟩, rfl⟩
        -- the edge shows at its end, so it is written when that end has its turn
        have hhere := foldl_removeEdge_writes hnot _ (p := p) (.inl hfound)
        exact removeEdges_induction
          (P := fun p => p.transaction.Writes (.fact (.edge x.key))) hs
          (fun _ _ hp => removeEdge_written _ hp) rs rfl h hhere
      · refine ih hr h ?_
        -- the other ends do not change the time at which edges are looked for
        have hsteps := foldl_removeEdge_steps (s := s) (F := fun _ _ => True) asserted
          ((s.query p.validTime (.touching r')).filterMap Document.edge?) p
        rw [hsteps.validTime]
        exact hd

/-- Removing edges leaves what was written, and otherwise deletes. -/
theorem removeEdges_leaves (hs : s.Sound) (rs : List Reference)
    (h : (removeEdges asserted rs p).Gives s q) (k : DocumentKey) :
    q.transaction.lastWrite? k = p.transaction.lastWrite? k ∨
      p.transaction.lastWrite? k = none ∧ q.transaction.lastWrite? k = some none := by
  refine removeEdges_induction (P := fun x => x.transaction.lastWrite? k =
      p.transaction.lastWrite? k ∨
      p.transaction.lastWrite? k = none ∧ x.transaction.lastWrite? k = some none) hs
    (fun {x e d} _ _ hx => ?_) rs rfl h (.inl rfl)
  rw [removeEdge]
  split
  · exact hx
  · next hcond =>
    rw [Bool.or_eq_true, not_or, writes_iff] at hcond
    -- an edge is deleted only if the plan has not written it so far
    have hpush : (x.transaction.push (.delete (.fact (.edge e.key)))).lastWrite? k =
        (if DocumentKey.fact (.edge e.key) = k then some none else none).or
          (x.transaction.lastWrite? k) := by
      rw [Transaction.lastWrite?_push, Operation.writeTo?_delete]
    show (x.transaction.push _).lastWrite? k = _ ∨ _ ∧
      (x.transaction.push _).lastWrite? k = _
    rw [hpush]
    split
    · next heq =>
      subst heq
      have hnone := (Transaction.lastWrite?_eq_none_iff _ _).mpr hcond.2
      refine .inr ⟨?_, rfl⟩
      rcases hx with hx | ⟨-, hx⟩
      · rw [← hx, hnone]
      · cases hnone.symm.trans hx
    · exact hx

end Plan

/-! ## Edges that outlive their objects -/

/-- An edge of a run is one of its edges. -/
theorem Run.exists_edge_of_asserted {r : Run} {e : EdgeKey} {k : Content}
    (h : r.asserted.get? (.edge e) = some k) : ∃ x ∈ r.edges, x.key = e := by
  obtain ⟨x, hx, heq⟩ := List.mem_map.mp (Table.mem_of_get?_ofList h)
  have hfact : x.fact = .edge e := congrArg Prod.fst heq
  rcases List.mem_append.mp hx with hx | hx
  · rcases List.mem_append.mp hx with hx | hx
    · obtain ⟨y, -, rfl⟩ := List.mem_map.mp hx
      cases hfact
    · obtain ⟨y, hy, rfl⟩ := List.mem_map.mp hx
      exact ⟨y, hy, Fact.edge.inj hfact⟩
  · obtain ⟨y, -, rfl⟩ := List.mem_map.mp hx
    cases hfact

namespace Call

variable {levels : LevelConfig} {config : ReconcileConfig} {c : Call} {s : Store} {q : Plan}
  {gone : KeySet Reference} {e : EdgeKey} {o : Reference}

/-- A dropped edge falls to another origin: the latest one that keeps it holds a content
    that does not show. -/
def PassesOn (c : Call) (s : Store) (e : EdgeKey) : Prop :=
  c.Drops s (.edge e) ∧ ∃ r k, Plan.survivor? c.origin (s.owners (.edge e)) = some r ∧
    r.content? (.edge e) = some k ∧
      ∀ d, s.visible c.validTime (.fact (.edge e)) = some d → (d == .content k) = false

section Drawn

variable (hs : s.Sound)
    (hfiled : ∀ f, ∀ r ∈ s.owners f, ∀ k, r.content? f = some k → k.fact = f)

include hs hfiled

/-- Before the edges of removed objects go, an edge that is not asserted is put if it
    falls to another origin. -/
private theorem put_iff_passesOn {p₀ p₁ : Plan}
    (hp₀ : (Plan.putAll c.asserted.entries (.empty c.validTime)).Gives s p₀)
    (hp₁ : (Plan.dropAll c.origin (Plan.droppedBy (s.lastRecord? c.origin) c.asserted) p₀
      Table.empty).Gives s (p₁, gone)) (hnot : c.asserted.get? (.edge e) = none) :
    p₁.validTime = c.validTime ∧
      ((∃ d, p₁.transaction.lastWrite? (.fact (.edge e)) = some (some d)) ↔
        c.PassesOn s e) := by
  have hputs := Plan.putAll_gives _ (fun e he => c.asserted.mem_entries_iff.mp he)
    (fun e he => c.filed_asserted (c.asserted.mem_entries_iff.mp he))
      c.asserted.nodup_keys hp₀
  have hdrops := Plan.dropAll_gives _ hfiled (Plan.nodup_droppedBy _ _) hp₁
  have hno : p₀.transaction.lastWrite? (.fact (.edge e)) = none := by
    refine hputs.others _ fun f hf heq => ?_
    cases heq
    obtain ⟨k, hk⟩ := c.asserted.mem_keys_iff.mp hf
    cases hk.symm.trans hnot
  refine ⟨hdrops.validTime.trans hputs.validTime, ?_⟩
  rw [PassesOn, drops_iff hs, ← Store.exists_dropping_iff (hfiled _)]
  by_cases hdrop : Fact.edge e ∈ Plan.droppedBy (s.lastRecord? c.origin) c.asserted
  · rw [hdrops.top _ hdrop, hno, Option.or_none, hputs.validTime]
    exact (and_iff_right hdrop).symm
  · rw [hdrops.others _ fun f hf heq => hdrop (by cases heq; exact hf), hno]
    simp [hdrop]

/-- **An edge at a removed object** is left by the plan if it falls to another origin,
    and goes otherwise. -/
private theorem Draws.leaves_orphan_iff (h : c.Draws .retractOrphanedEdges s q gone)
    (hnot : c.asserted.get? (.edge e) = none) (hgone : gone.contains o = true)
    (htouches : e.touches o = true) : (∃ d, q.leaves s (.edge e) = some d) ↔
    c.PassesOn s e := by
  have hvalid := h.validTime
  obtain ⟨p₀, hp₀, hq⟩ := h
  obtain ⟨⟨p₁, gone'⟩, hp₁, hq⟩ := hq.of_bind
  obtain ⟨p₂, hp₂, hq⟩ := hq.of_bind
  obtain ⟨rfl, rfl⟩ := Prod.mk.inj (hq.unique (Reading.gives_pure s _))
  obtain ⟨htime, hpasses⟩ := put_iff_passesOn hs hfiled hp₀ hp₁ hnot
  rw [← hpasses, Plan.leaves, hvalid]
  rcases Plan.removeEdges_leaves hs _ hp₂ (.fact (.edge e)) with hsame | ⟨hnone, hdeleted⟩
  · rw [hsame]
    cases hw : p₁.transaction.lastWrite? (.fact (.edge e)) with
    | some w =>
        cases w with
        | some d => exact ⟨fun _ => ⟨d, rfl⟩, fun _ => ⟨d, rfl⟩⟩
        | none => simp
    | none =>
        -- the edge was not written at all, so it does not show
        refine ⟨?_, fun h => by simp at h⟩
        rintro ⟨d, hd⟩
        have hcontains : c.asserted.contains (.edge e) = false := by
          rw [Table.contains, hnot]
          rfl
        have hwrites := Plan.removeEdges_covers hs hcontains htouches _
          (KeySet.mem_toList _ |>.mpr hgone) hp₂ (htime.symm ▸ hd)
        exact absurd hwrites ((Transaction.lastWrite?_eq_none_iff _ _).mp (hsame.trans hw))
  · rw [hdeleted, hnone]
    simp

end Drawn

/-- A plan deletes what it reports as retracted. -/
private theorem deletes_of_retracted (hq : q.Exact s) (hs : s.Sound) {f : Fact}
    (h : ⟨f, .retracted⟩ ∈ q.changes) :
    q.transaction.lastWrite? (.fact f) = some none ∧ q.leaves s f = none := by
  have hbetween := (hq.mem_changes_iff hs).mp h
  have hleaves : q.leaves s f = none := by
    cases hl : q.leaves s f with
    | none => rfl
    | some d =>
        rw [hl] at hbetween
        cases hv : s.visible q.validTime (.fact f) with
        | none =>
            rw [hv] at hbetween
            cases hbetween
        | some d' =>
            rw [hv, ChangeKind.between?] at hbetween
            split at hbetween <;> cases hbetween
  refine ⟨?_, hleaves⟩
  cases hw : q.transaction.lastWrite? (.fact f) with
  | some w =>
      rw [Plan.leaves, hw] at hleaves
      exact congrArg some hleaves
  | none =>
      -- what is not written stays as it shows
      rw [hleaves] at hbetween
      rw [Plan.leaves, hw, Option.getD_none] at hleaves
      rw [hleaves] at hbetween
      cases hbetween

/-- How a plan is drawn, and that it has no edge asserted at an object that it leaves
    absent. -/
private theorem plan_drawn_checked {policy : CascadePolicy} {p : Plan} (hs : s.Sound)
    (hfiled : ∀ f, ∀ r ∈ s.owners f, ∀ k, r.content? f = some k → k.fact = f)
    (h : (c.plan policy).Gives s (some p)) :
    ∃ q gone, c.Draws policy s q gone ∧ q.Closes c.origin c.asserted p ∧
      ∀ (e : EdgeKey) o, e.touches o = true → q.leaves s (.object o) = none →
        c.asserted.get? (.edge e) = none := by
  cases c with
  | retire o t =>
      obtain ⟨q, gone, hdraws, hcloses⟩ := plan_drawn hs h
      exact ⟨q, gone, hdraws, hcloses, fun _ _ _ _ => rfl⟩
  | reconcile r =>
      obtain ⟨previous, p₁, q, gone, hprevious, -, hp₁, hq, hchecked, ⟨hnone, -⟩ | hp⟩ :=
        Plan.ofRun_checked h
      · cases hnone
      obtain rfl := hprevious.unique (hs.previous_gives_last r.origin)
      obtain rfl := Option.some.inj hp
      have hdraws : (reconcile r).Draws policy s q gone := ⟨p₁, hp₁, hq⟩
      refine ⟨q, gone, hdraws, .record _ rfl rfl, fun e o htouches habsent => ?_⟩
      cases hk : (reconcile r).asserted.get? (.edge e) with
      | none => rfl
      | some k =>
          obtain ⟨x, hx, rfl⟩ := Run.exists_edge_of_asserted hk
          -- an asserted edge needs both ends, and needed ends are left by the plan
          obtain ⟨n, hn, hno⟩ : ∃ n ∈ Plan.needs r, n.2 = o := by
            rcases Bool.or_eq_true _ _ |>.mp htouches with hsource | htarget
            · exact ⟨_, (Run.needs_ends hx).1, eq_of_beq hsource⟩
            · exact ⟨_, (Run.needs_ends hx).2, eq_of_beq htarget⟩
          obtain ⟨d, hd⟩ := hdraws.leaves_needed hs hfiled hchecked hn
          rw [hno, habsent] at hd
          cases hd

variable {w w' : World} {x : Outcome}

/-- **Which edges outlive their objects.** Where orphaned edges are to go, an edge at an
    object that a call retracts shows afterwards if and only if the call drops it and it
    falls to another origin with a content that did not show. -/
theorem orphan_shows_iff (hserved : s.Served)
    (hcascade : config.cascade = .retractOrphanedEdges)
    (hw : w.Alone s) (h : c.perform levels config w = (.ok x, w'))
    (hretracted : ⟨.object o, .retracted⟩ ∈ x.changes) (htouches : e.touches o = true) :
    (∃ d, w'.backend.store.visible c.validTime (.fact (.edge e)) = some d) ↔
    c.PassesOn s e := by
  obtain ⟨hs, hhistory⟩ := hserved.kept
  have hfiled := hhistory.owners hs
  rcases c.perform_ok hw h with ⟨-, rfl, -⟩ | ⟨p, id, hplan, hsub, rfl⟩
  · cases hretracted
  rw [hcascade] at hplan
  obtain ⟨q, gone, hdraws, hcloses, hasserted⟩ := plan_drawn_checked hs hfiled hplan
  obtain ⟨hchanges, -, y, hfiles⟩ := hcloses.files
  have htidy := hdraws.tidy hs hfiled
  obtain ⟨hdeleted, habsent⟩ := deletes_of_retracted htidy.exact hs (hchanges ▸ hretracted)
  rw [hdraws.visible_submit hs hfiles hsub]
  exact Draws.leaves_orphan_iff hs hfiled hdraws (hasserted e o htouches habsent)
    (htidy.accounts o hdeleted) htouches

/-- The link between two hosts. -/
def link : EdgeKey := ⟨⟨"Host|x"⟩, "link", ⟨"Host|y"⟩⟩

/-- A run that finds hosts, and the link up or down. -/
def linkFound (origin : String) (hosts : List String) (links : List Bool) : Call :=
  .reconcile ⟨⟨origin⟩, .observation, .latest,
    hosts.map fun h => ⟨⟨"Host|" ++ h⟩, "Host", Table.empty⟩,
    links.map fun up => ⟨link, Table.ofList [("up", ⟨.bool up, rfl⟩)]⟩, []⟩

/-- One origin finds the link up, another one finds it down, and the first one again
    up. -/
def linkDisputed : Store :=
  Engine.doneTo .empty
    ([("a", ["x", "y"], [true]), ("b", [], [false]), ("a", ["x", "y"], [true])].map
    fun r => .call .standard Engine.cascading (linkFound r.1 r.2.1 r.2.2))

/-- Then the first one loses a host with the link. The host goes, and the link stays as
    the other origin has it. -/
theorem orphan_shows_iff_linkDisputed : ∃ s x w', s = linkDisputed ∧
    (linkFound "a" ["y"] []).perform .standard Engine.cascading (World.holding s) =
      (.ok x, w') ∧
    x.changes = [⟨.object ⟨"Host|x"⟩, .retracted⟩, ⟨.edge link, .updated⟩] ∧
    (∃ d, w'.backend.store.visible .latest (.fact (.edge link)) = some d) ∧
    (linkFound "a" ["y"] []).PassesOn s link := by
  obtain ⟨s, hs⟩ : ∃ s, s = linkDisputed := ⟨_, rfl⟩
  have hserved : s.Served := hs ▸ Engine.served_doneTo _ .empty
  have hrun : ((linkFound "a" ["y"] []).perform .standard Engine.cascading
      (World.holding s)).1.toOption.any (fun x => x.changes =
        [⟨.object ⟨"Host|x"⟩, .retracted⟩, ⟨.edge link, .updated⟩]) = true := by
    rw [hs]
    decide +kernel
  have hshows : (((linkFound "a" ["y"] []).perform .standard Engine.cascading
      (World.holding s)).2.backend.store.visible .latest (.fact (.edge link))).isSome =
        true := by
    rw [hs]
    decide +kernel
  obtain ⟨x, hx, hchanges⟩ := Act.exists_eq_ok
    (a := (linkFound "a" ["y"] []).perform .standard Engine.cascading)
      (w := World.holding s) _ hrun
  have hchanges := of_decide_eq_true hchanges
  have hretracted : (⟨.object ⟨"Host|x"⟩, .retracted⟩ : Change) ∈ x.changes :=
    hchanges ▸ List.mem_cons_self
  have hstays := Option.isSome_iff_exists.mp hshows
  exact ⟨s, x, _, hs, hx, hchanges, hstays, (orphan_shows_iff hserved rfl
    (World.alone_holding s) hx hretracted (by decide)).mp hstays⟩

end Call

end ClearanceGraph
