import ClearanceGraph.Proofs.Origin.Exactness

/-! # Guarantees — what a store shows after a run

    A run that succeeds, with a commit or with nothing to do, leaves a store that
    reflects it (`Run.Reflected`): all that it asserts shows, edges and declared levels
    have their objects, and the latest record of the origin says what was asserted.

    The objects are looked up in the store before the plan, and the plan may delete
    objects.  But it accounts for every one that it deletes, and none of those passed
    the check (`Call.Draws.leaves_needed`).

    Two conditions enter.  A survivor is put with the content that its own record has
    under the fact, so records have to file contents under their own facts.  And the
    match of a commit guards the record of its own origin only, so nobody else may
    commit between reading and submitting.  The last section shows why neither can go. -/

namespace ClearanceGraph

/-- An object shows in a store at an instant. -/
def Store.ShowsObject (s : Store) (t : Instant) (r : Reference) : Prop :=
  ∃ o : Object, o.reference = r ∧
    s.visible t (.fact (.object r)) = some (.content (.object o))

/-- What shows of the fact of an object is the object. -/
theorem Store.Sound.showsObject {s : Store} (hs : s.Sound) {t : Instant} {r : Reference}
    {d : Document} (h : s.visible t (.fact (.object r)) = some d) : s.ShowsObject t r := by
  have hkey := hs.key_of_visible h
  rcases d with (o | e | l) | x | p | e <;> simp [Document.key, Content.fact] at hkey
  exact ⟨o, hkey, h⟩

/-! ## What was checked -/

namespace Plan

variable {s : Store} {t : Instant} {present gone : KeySet Reference}

private theorem checkPresent_gives {d : Dependent} {r : Reference} {x : Unit}
    (h : (checkPresent present gone t d r).Gives s x) :
    present.contains r = true ∨
      gone.contains r = false ∧ ∃ d, s.visible t (.fact (.object r)) = some d := by
  rw [checkPresent] at h
  by_cases hpresent : present.contains r = true
  · exact .inl hpresent
  rw [if_neg hpresent] at h
  by_cases hgone : gone.contains r = true
  · rw [if_pos hgone] at h
    exact absurd h (Reading.not_gives_throw _ _ _)
  rw [if_neg hgone] at h
  obtain ⟨current, hcurrent, h⟩ := h.of_bind
  have hvisible := hcurrent.unique (Reading.gives_get _ _ s)
  cases current with
  | none => exact absurd h (Reading.not_gives_throw _ _ _)
  | some d => exact .inr ⟨Bool.eq_false_iff.mpr hgone, d, hvisible.symm⟩

/-- **What was checked** is asserted, or shows and is not removed. -/
theorem checkAll_gives {ns : List (Dependent × Reference)}
    (h : (checkAll present gone t ns).Gives s ()) :
    ∀ n ∈ ns, present.contains n.2 = true ∨
      gone.contains n.2 = false ∧ ∃ d, s.visible t (.fact (.object n.2)) = some d := by
  induction ns with
  | nil => exact fun _ hn => absurd hn List.not_mem_nil
  | cons n ns ih =>
      obtain ⟨⟨⟩, hone, hrest⟩ := h.of_bind
      intro m hm
      rcases List.mem_cons.mp hm with rfl | hm
      · exact checkPresent_gives hone
      · exact ih hrest m hm

end Plan

/-- An object of a run is asserted. -/
theorem Run.exists_asserted_object {r : Run} {q : Reference}
    (h : (KeySet.ofList (r.objects.map (·.reference))).contains q = true) :
    ∃ k, r.asserted.get? (.object q) = some k := by
  obtain ⟨o, ho, rfl⟩ := List.mem_map.mp (KeySet.contains_ofList_iff.mp h)
  refine Table.exists_get?_insertMany
    (.inl ⟨.object o, List.mem_map.mpr ⟨.object o, ?_, rfl⟩⟩)
  exact List.mem_append_left _ (List.mem_append_left _ (List.mem_map.mpr ⟨o, ho, rfl⟩))

namespace Call.Draws

variable {s : Store} {q : Plan} {policy : CascadePolicy} {gone : KeySet Reference} {r : Run}

variable (h : (Call.reconcile r).Draws policy s q gone) (hs : s.Sound)
  (hfiled : ∀ f, ∀ r ∈ s.owners f, ∀ k, r.content? f = some k → k.fact = f)

include h hs hfiled

/-- What a run asserts is there as asserted. -/
theorem leaves_asserted {f : Fact} {k : Content} (hk : r.asserted.get? f = some k) :
    ∃ d, q.leaves s f = some d ∧ (d == .content k) = true := by
  obtain rfl := r.filed_asserted hk
  rw [Plan.leaves, h.validTime, h.asserts hs hfiled hk]
  exact s.exists_getD_putting r.validTime k

/-- **What a run needs** is there after the plan, if it was there when it was checked. -/
theorem leaves_needed
    (hchecked :
      (Plan.checkAll (KeySet.ofList (r.objects.map (·.reference))) gone r.validTime
      (Plan.needs r)).Gives s ()) {n : Dependent × Reference} (hn : n ∈ Plan.needs r) :
    ∃ d, q.leaves s (.object n.2) = some d := by
  rcases Plan.checkAll_gives hchecked n hn with hpresent | ⟨hgone, d, hd⟩
  · obtain ⟨k, hk⟩ := Run.exists_asserted_object hpresent
    obtain ⟨d, hd, -⟩ := h.leaves_asserted hs hfiled hk
    exact ⟨d, hd⟩
  · -- it showed, and no plan deletes an object that it does not know as removed
    rw [Plan.leaves, h.validTime]
    cases hw : q.transaction.lastWrite? (.fact (.object n.2)) with
    | none => exact ⟨d, hd⟩
    | some w =>
        cases w with
        | some d' => exact ⟨d', rfl⟩
        | none =>
            have hknown := (h.tidy hs hfiled).accounts n.2 hw
            cases hgone.symm.trans hknown

end Call.Draws

/-! ## The guarantee -/

namespace Run

variable {r : Run}

/-- **A store reflects a run**: what it asserts shows, with the objects that it refers
    to, and the latest record of its origin says what it asserts. -/
structure Reflected (r : Run) (s : Store) : Prop where
  asserted : ∀ f k, r.asserted.get? f = some k →
    ∃ d, s.visible r.validTime (.fact f) = some d ∧ (d == .content k) = true
  ends : ∀ e ∈ r.edges,
    s.ShowsObject r.validTime e.key.source ∧ s.ShowsObject r.validTime e.key.target
  declared : ∀ d ∈ r.declarations, s.ShowsObject r.validTime d.reference
  recorded : r.asserted.isEmpty = false → ∃ l, (Ledger.previous r.origin).Gives s (some l) ∧
    l.method = r.method ∧ (l.result == r.asserted) = true

theorem needs_ends {e : Edge} (he : e ∈ r.edges) :
    (.edge e.key, e.key.source) ∈ Plan.needs r ∧ (.edge e.key, e.key.target) ∈
      Plan.needs r := by
  constructor
  · exact List.mem_append_left _ (List.mem_flatMap.mpr ⟨e, he, by simp⟩)
  · exact List.mem_append_left _ (List.mem_flatMap.mpr ⟨e, he, by simp⟩)

theorem needs_declared {d : DeclaredLevel} (hd : d ∈ r.declarations) :
    (.declaration d.reference, d.reference) ∈ Plan.needs r :=
  List.mem_append_right _ (List.mem_map.mpr ⟨d, hd, rfl⟩)

section Plan

variable {s s' : Store} {policy : CascadePolicy} (hs : s.Sound) (hfiled : s.RecordsFiled)

include hs hfiled

/-- A store that shows what a plan leaves, and has the record, reflects the run. -/
private theorem reflected_of_drawn {q : Plan} {gone : KeySet Reference} (hs' : s'.Sound)
    (hdraws : (Call.reconcile r).Draws policy s q gone)
    (hchecked :
      (Plan.checkAll (KeySet.ofList (r.objects.map (·.reference))) gone r.validTime
      (Plan.needs r)).Gives s ())
    (hshows : ∀ f, s'.visible r.validTime (.fact f) = q.leaves s f)
    (hrecord : r.asserted.isEmpty = false → ∃ l, s'.lastRecord? r.origin = some l ∧
      l.method = r.method ∧ (l.result == r.asserted) = true) : r.Reflected s' := by
  have hneeded : ∀ n ∈ Plan.needs r, s'.ShowsObject r.validTime n.2 := by
    intro n hn
    obtain ⟨d, hd⟩ := hdraws.leaves_needed hs (hfiled.owners hs) hchecked hn
    exact hs'.showsObject ((hshows _).trans hd)
  refine ⟨fun f k hk => ?_, fun e he => ?_, fun d hd => ?_, fun hne => ?_⟩
  · rw [hshows]
    exact hdraws.leaves_asserted hs (hfiled.owners hs) hk
  · exact ⟨hneeded _ (needs_ends he).1, hneeded _ (needs_ends he).2⟩
  · exact hneeded _ (needs_declared hd)
  · obtain ⟨l, hl, hrest⟩ := hrecord hne
    exact ⟨l, hl ▸ hs'.previous_gives_last r.origin, hrest⟩

/-- Where a run has nothing to do, it is reflected as it is. -/
theorem reflected_of_unchanged (h : (Plan.ofRun policy r).Gives s none) :
    r.Reflected s := by
  obtain ⟨previous, p, q, gone, hprevious, hmethod, hp, hq, hchecked,
    ⟨-, hempty, hsame⟩ | hsome⟩ :=
    Plan.ofRun_checked h
  · obtain rfl := hprevious.unique (hs.previous_gives_last r.origin)
    have hdraws : (Call.reconcile r).Draws policy s q gone := ⟨p, hp, hq⟩
    refine reflected_of_drawn hs hfiled hs hdraws hchecked (fun f => ?_) fun hne => ?_
    · have hno : q.transaction.lastWrite? (.fact f) = none :=
        (Transaction.lastWrite?_eq_none_iff _ _).mpr
          ((Transaction.isEmpty_iff _).mp hempty _)
      rw [Plan.leaves, hno, hdraws.validTime]
      rfl
    · cases hl : s.lastRecord? r.origin with
      | none =>
          rw [hl] at hsame
          cases hne.symm.trans hsame
      | some l =>
          rw [hl] at hsame
          exact ⟨l, rfl, hmethod l hl, hsame⟩
  · cases hsome

/-- The commit of its plan reflects a run. -/
theorem reflected_of_commit {x : Plan} {id : TransactionId}
    (h : (Plan.ofRun policy r).Gives s (some x))
    (hsub : s.submit x.transaction = .ok (id, s')) :
    r.Reflected s' := by
  obtain ⟨previous, p, q, gone, hprevious, -, hp, hq, hchecked, ⟨hnone, -⟩ | hx⟩ :=
    Plan.ofRun_checked h
  · cases hnone
  obtain rfl := hprevious.unique (hs.previous_gives_last r.origin)
  obtain rfl := Option.some.inj hx
  obtain ⟨l, hl⟩ : ∃ l : OriginRecord, l = ⟨r.origin, r.method, r.validTime, r.asserted,
    (s.lastRecord? r.origin).elim 1 (·.runs + 1)⟩ := ⟨_, rfl⟩
  rw [← hl] at hsub
  have hid : l.id = r.origin := by rw [hl]
  have hfiles : Store.Files q r.origin (some l)
      (Ledger.setCurrent q.transaction (s.lastRecord? r.origin) l) :=
    hid ▸ Store.files_setCurrent q _ l
  have hdraws : (Call.reconcile r).Draws policy s q gone := ⟨p, hp, hq⟩
  refine reflected_of_drawn hs hfiled (hs.submit hsub) hdraws hchecked
    (hdraws.visible_submit hs hfiles hsub) fun _ => ⟨l, ?_, by rw [hl], ?_⟩
  · -- the origin was not seen later than the run, so its new record is the latest
    have htime : (Ledger.setCurrent q.transaction (s.lastRecord? r.origin) l).validTime =
        r.validTime := hfiles.validTime.trans hdraws.validTime
    rw [Store.lastRecord?, Store.newestOf?_submit_of_le hs hsub hfiles.lastWrite?_own
      (htime.symm ▸ Plan.not_stale_of_ofRun h)]
    rfl
  · rw [hl]
    exact beq_self_eq_true r.asserted

end Plan

end Run

namespace Reconcile

variable {levels : LevelConfig} {config : ReconcileConfig} {r : Run} {w w' : World}
    {x : Outcome}

/-- **A run that succeeds is reflected**, whatever is done about orphaned edges and
    whether anything had to be written, if the records file their contents under their
    own facts and nobody else commits in between. -/
theorem reconcile_reflects (hs : w.backend.store.Reachable)
    (hfiled : w.backend.store.RecordsFiled) (halone : w.rivals = [])
    (h : reconcile levels config r w = (.ok x, w')) : r.Reflected w'.backend.store := by
  rcases Call.perform_ok (c := .reconcile r) ⟨rfl, halone⟩ h with
    ⟨hplan, -, hsame⟩ | ⟨p, id, hplan, hsub, -⟩
  · rw [hsame]
    exact Run.reflected_of_unchanged hs.sound hfiled hplan
  · exact Run.reflected_of_commit hs.sound hfiled hplan hsub

/-- Others found hosts and links, and an origin that declares levels found one more. -/
def hostsKnown : Store :=
  Engine.doneTo .empty (Engine.hostsFound ++ [.call .standard Engine.cascading
    (.reconcile ⟨⟨"d"⟩, .declaration, .latest, [⟨⟨"Host|z"⟩, "Host", Table.empty⟩], [],
      []⟩)])

/-- It does not find that host any more, finds a link that is known already, and
    declares a level. -/
def levelDeclared : Run :=
  ⟨⟨"d"⟩, .declaration, .latest, [], [⟨⟨⟨"Host|x"⟩, "link", ⟨"Host|y"⟩⟩, Table.empty⟩],
    [⟨⟨"Host|y"⟩, ⟨2, by decide⟩⟩]⟩

/-- The level shows with its host, and so does the link with its ends. -/
theorem reconcile_reflects_levelDeclared : ∃ s x w', s = hostsKnown ∧
    reconcile .standard Engine.cascading levelDeclared (World.holding s) = (.ok x, w') ∧
      x.changes = [⟨.declaration ⟨"Host|y"⟩, .created⟩, ⟨.object ⟨"Host|z"⟩, .retracted⟩] ∧
      levelDeclared.Reflected w'.backend.store := by
  obtain ⟨s, hs⟩ : ∃ s, s = hostsKnown := ⟨_, rfl⟩
  have hserved : s.Served := hs ▸ Engine.served_doneTo _ .empty
  have hrun : (reconcile .standard Engine.cascading levelDeclared
      (World.holding s)).1.toOption.any (fun x => x.changes =
        [⟨.declaration ⟨"Host|y"⟩, .created⟩, ⟨.object ⟨"Host|z"⟩, .retracted⟩]) =
          true := by
    rw [hs]
    decide +kernel
  obtain ⟨x, hx, hchanges⟩ := Act.exists_eq_ok
    (a := reconcile .standard Engine.cascading levelDeclared) (w := World.holding s) _ hrun
  exact ⟨s, x, _, hs, hx, of_decide_eq_true hchanges,
    reconcile_reflects hserved.reachable hserved.kept.2.recordsFiled rfl hx⟩

/-! ## Where a run is not reflected -/

/-- A host with the mark that says whether it is up. -/
def hostY (up : Bool) : Object :=
  ⟨⟨"Host|y"⟩, "Host", Table.ofList [("up", ⟨.bool up, Eq.refl true⟩)]⟩

/-- An origin finds that host, and it is up. -/
def hostUp : Run := ⟨⟨"a"⟩, .observation, .latest, [hostY true], [], []⟩

/-- The record of an origin that has one entry. -/
def entered (origin : String) (f : Fact) (c : Content) : OriginRecord :=
  ⟨⟨origin⟩, .observation, .latest, Table.ofList [(f, c)], 1⟩

/-- The origin found another host before. A second origin asserts that one too, but its
    record has the first host there, and says that it is down. -/
def hostMisfiled : Store := .ofTransactions [⟨.latest, [
  .put (.origin (entered "a" (.object ⟨"Host|x"⟩)
    (.object ⟨⟨"Host|x"⟩, "Host", Table.empty⟩))),
  .put (.origin (entered "b" (.object ⟨"Host|x"⟩) (.object (hostY false))))]⟩]

/-- A second origin found the host first. -/
def hostShared : Store :=
  Engine.doneTo .empty
    [.call .standard .standard (Engine.found "b" .latest [("y", true)] [])]

/-- A world in which the plan of another call is submitted just before the next submit. -/
def racedBy (c : Call) (s : Store) : World :=
  { World.holding s with
    rivals := [(c.plan .retain s).1.toOption.join.map (·.transaction)] }

/-- The second origin loses the host while the first one finds it. -/
def hostRaced : World := racedBy (Engine.found "b" .latest [] []) hostShared

/-- A run is not reflected where something that it asserts does not show as asserted. -/
private theorem not_reflected {s : Store} {f : Fact} {k : Content}
    (hk : r.asserted.get? f = some k)
    (h : (s.visible r.validTime (.fact f)).any (· == .content k) = false) :
      ¬ r.Reflected s := by
  intro hreflected
  obtain ⟨d, hd, hsame⟩ := hreflected.asserted f k hk
  rw [hd, Option.any_some] at h
  cases h.symm.trans hsame

/-- What shows of the host after the run decides whether the run is reflected. -/
private theorem not_reflected_hostUp {w : World}
    (hok : (reconcile .standard .standard hostUp w).1.toOption.isSome = true)
    (hshows : ((reconcile .standard .standard hostUp w).2.backend.store.visible .latest
      (.fact (.object ⟨"Host|y"⟩))).any (· == .content (.object (hostY true))) = false) :
    ∃ x w', reconcile .standard .standard hostUp w = (.ok x, w') ∧
      ¬ hostUp.Reflected w'.backend.store := by
  have hasserted : hostUp.asserted.get? (.object ⟨"Host|y"⟩) =
      some (.object (hostY true)) := by
    rfl
  obtain ⟨x, hx⟩ := Option.isSome_iff_exists.mp hok
  exact ⟨x, _, Prod.ext (Act.toOption_eq_some_iff.mp hx) rfl,
    not_reflected hasserted hshows⟩

/-- **Neither condition can go.** A record with a content under another fact makes a run
    put that content in the place of what it asserts itself. And the match of a commit
    looks at the record of its own origin only, so another origin can remove a host that
    the plan found there. -/
theorem not_reflects_hostUp :
    (∃ w x w', w = World.holding hostMisfiled ∧ w.backend.store.Reachable ∧ w.rivals = [] ∧
      reconcile .standard .standard hostUp w = (.ok x, w') ∧
      ¬ hostUp.Reflected w'.backend.store) ∧
    ∃ w x w', w = hostRaced ∧ w.backend.store.Reachable ∧ w.backend.store.RecordsFiled ∧
      reconcile .standard .standard hostUp w = (.ok x, w') ∧
      ¬ hostUp.Reflected w'.backend.store := by
  constructor
  · obtain ⟨w, hw⟩ : ∃ w, w = World.holding hostMisfiled := ⟨_, rfl⟩
    have hreach : w.backend.store.Reachable := hw ▸ Store.reachable_ofTransactions _
    -- the host is put twice, and the content of the misfiled record comes last
    obtain ⟨x, w', hx, hnot⟩ := not_reflected_hostUp (w := w) (by rw [hw]; decide +kernel)
      (by rw [hw]; decide +kernel)
    exact ⟨w, x, w', hw, hreach, hw ▸ rfl, hx, hnot⟩
  · obtain ⟨w, hw⟩ : ∃ w, w = hostRaced := ⟨_, rfl⟩
    have hserved : w.backend.store.Served := hw ▸ Engine.served_doneTo _ .empty
    -- the plan found the host as asserted, so the commit does not put it
    obtain ⟨x, w', hx, hnot⟩ := not_reflected_hostUp (w := w) (by rw [hw]; decide +kernel)
      (by rw [hw]; decide +kernel)
    exact ⟨w, x, w', hw, hserved.reachable, hserved.kept.2.recordsFiled, hx, hnot⟩

end Reconcile

end ClearanceGraph
