import ClearanceGraph.Engine.Recalculation
import ClearanceGraph.Proofs.Engine.Invariant

/-! # Recalculations — what waits is sent, what is owed is taken up

    A recalculation publishes the waiting list, flushes what is unfinished, and settles
    every object anew.  Each part keeps the engine in order, whatever fails.

    In fair weather nothing is left (`Store.Drained`): levels have followed every
    commit of reconciliation, and no entry waits.  `leads_recalculate` says both. -/

namespace ClearanceGraph

namespace Store

/-- Nothing is left to do. -/
structure Drained (s : Store) : Prop where
  followed : ∀ t, s.IsGraph t → (s.box t).state = .recorded
  told : ∀ t e, s.box t = .entry e → e.propagated = false

end Store

namespace Stage

variable {a a' : Stage} {sky : Weather} {g : Scene} {es : List OutboxEntry}
  {ts : List TransactionId}

section Republished

variable (hr : Publisher.Republished sky es ts a.scene g)

include hr

private theorem versionsOf_eq {t : TransactionId} (ht : t ∉ ts) :
    g.store.versionsOf (.outbox t) = a.store.versionsOf (.outbox t) := by
  refine hr.grows.kept _ ?_
  rintro ⟨u, hu, heq⟩
  exact ht (DocumentKey.outbox.inj heq ▸ hu)

/-! ## The waiting list -/

variable (hes : ∀ e, e ∈ es ↔
  a.store.box e.batch.transaction = .entry e ∧ e.propagated = true)

include hes

/-- What was published had an entry that levels had followed. -/
private theorem exists_entry {t : TransactionId} (ht : t ∈ ts) :
    ∃ e ∈ es, e.batch.transaction = t ∧ a.store.box t = .entry e ∧ e.propagated = true := by
  obtain ⟨e, he, rfl⟩ := List.mem_map.mp (hr.listed t ht)
  exact ⟨e, he, rfl, (hes e).mp he⟩

/-- **Publishing the waiting list** is a part of a run. -/
theorem Orderly.republished (h : a.Orderly) :
    Moves [] a
      (Stage.setBarrier ⟨a.engine, g⟩ (ts.foldl Barrier.complete a.engine.barrier)) := by
  have hP : ∀ o : OriginId, ¬ ∃ t ∈ ts, DocumentKey.origin o = .outbox t := by
    rintro o ⟨t, -, heq⟩
    cases heq
  refine .of_quiet (h.of_grows hr.boxed hr.grows hP rfl ?_ ?_) hr.within
    (fun t ht => (hr.grows.isGraph_iff hP).mpr ht) ?_
  · intro t _ hstate
    show (g.store.box t).state = _
    by_cases ht : t ∈ ts
    · rcases hr.box t ht with hsame | hcleared
      · rwa [hsame]
      · rw [hcleared]
        rfl
    · rwa [Store.box_congr (versionsOf_eq hr ht)]
  · intro t ht
    obtain ⟨hold, hnot⟩ := (Barrier.contains_completeAll_iff ts).mp ht
    exact ⟨hold, fun hopen => by
      show g.store.box t ≠ _
      rwa [Store.box_congr (versionsOf_eq hr hnot)]⟩
  · intro t r hlast
    by_cases ht : t ∈ ts
    · -- the entry was the last word, so all that it names is told now
      obtain ⟨e, he, rfl, hbox, hprop⟩ := exists_entry hr hes ht
      have hstep := h.boxed.settled _ (by rw [hbox, Box.state, hprop]; rfl)
      exact .inl (hr.told e he ht r ((hstep.names hbox).mp hlast))
    · exact .inr ((Store.lastNames_congr (versionsOf_eq hr ht)).mpr hlast)

/-- In fair weather nothing waits any more. -/
theorem told_of_republished (hfair : sky.fair) {t : TransactionId} {e : OutboxEntry}
    (hbox : g.store.box t = .entry e) : e.propagated = false := by
  have hid := hr.boxed.transaction_of_box hbox
  refine Bool.eq_false_iff.mpr fun hprop => ?_
  have hold : a.store.box t = .entry e := by
    by_cases ht : t ∈ ts
    · rcases hr.box t ht with hsame | hcleared
      · rwa [← hsame]
      · cases hcleared.symm.trans hbox
    · rwa [← Store.box_congr (versionsOf_eq hr ht)]
  have hcleared := (hr.fair hfair e ((hes e).mpr ⟨hid.symm ▸ hold, hprop⟩)).2
  rw [hid] at hcleared
  cases hcleared.symm.trans hbox

end Republished

namespace Orderly

variable (h : a.Orderly)

include h

/-! ## The full pass -/

/-- **A commit of profiles** is a part of a run. It is none of reconciliation, and
    nothing is kept of it yet. -/
theorem profiles {tx : Transaction} {id : TransactionId}
    (hstore : a.store.submit tx = .ok (id, g.store)) (htopics : g.topics = a.scene.topics)
    (hle : tx.validTime ≤ Instant.latest)
    (hprofile : ∀ k, tx.Writes k → k.isProfile = true) :
    Moves [] a ⟨a.engine, g⟩ ∧ (a.store.Drained → g.store.Drained) ∧
      id.value ≤ g.store.log.length ∧ ¬ g.store.IsGraph id ∧ g.store.box id = .absent := by
  have hno : ∀ t, ¬ tx.Writes (.outbox t) := fun t hw => nomatch hprofile _ hw
  have hgrows : a.store.Grows (·.isProfile = true) g.store :=
    .of_submit h.boxed.sound hstore hprofile
  have hP : ∀ o, ¬ (DocumentKey.origin o).isProfile = true := fun _ hk => nomatch hk
  have hbox := Store.box_of_silent hstore hno
  have habsent := h.boxed.box_id_of_silent hstore hno
  obtain ⟨-, rfl, hlog, -, -⟩ := Store.submit_eq_ok hstore
  have hnext := h.boxed.sound.nextId_value
  refine ⟨h.silent hstore htopics hle hno, fun hdrained =>
    ⟨fun t ht => ?_, fun t e he => ?_⟩, ?_, ?_, habsent⟩
  · rw [hbox]
    exact hdrained.followed t ((hgrows.isGraph_iff hP).mp ht)
  · rw [hbox] at he
    exact hdrained.told t e he
  · rw [hlog, List.length_append, List.length_singleton]
    omega
  · -- the commit is no graph commit, since its number was free before
    rw [hgrows.isGraph_iff hP]
    rintro ⟨c, hc, -⟩
    have := (h.boxed.sound.id_of_transaction? hc).2.2
    omega

/-- A scene with the same store. -/
private theorem same (hstore : g.store = a.store) (hwithin : a.scene.Within g) :
    Moves [] a ⟨a.engine, g⟩ := by
  obtain ⟨s, topics⟩ := g
  obtain rfl : s = a.scene.store := hstore
  exact .of_quiet ⟨h.boxed, h.marks, h.pending⟩ hwithin (fun _ ht => ht) fun _ _ hr =>
    .inr hr

section Fresh

variable {t : TransactionId} (hgraph : ¬ a.store.IsGraph t)
    (habsent : a.store.box t = .absent)

include hgraph habsent

/-- Posting for a commit that is none of reconciliation, and of which nothing was kept. -/
private theorem posted {e : Option OutboxEntry} (htopped : a.store.Topped t e g.store)
    (hwithin : a.scene.Within g) : Moves [] a ⟨a.engine, g⟩ := by
  have hP : ∀ o, ¬ DocumentKey.origin o = .outbox t := fun _ hk => nomatch hk
  have hvers : ∀ u, u ≠ t → g.store.versionsOf (.outbox u) = a.store.versionsOf
    (.outbox u) :=
    fun u hu => htopped.grows.kept _ fun hk => hu (DocumentKey.outbox.inj hk)
  have hother : ∀ u, a.store.IsGraph u → u ≠ t := fun u hu heq => hgraph (heq ▸ hu)
  refine .of_quiet (h.of_grows htopped.boxed htopped.grows hP rfl ?_ ?_) hwithin
    (fun u hu => (htopped.grows.isGraph_iff hP).mpr hu) ?_
  · intro u hu hstate
    show (g.store.box u).state = _
    rwa [Store.box_congr (hvers u (hother u hu))]
  · intro u hu
    refine ⟨hu, fun hopen => ?_⟩
    show g.store.box u ≠ _
    rwa [Store.box_congr (hvers u (hother u (h.pending u hu).1))]
  · intro u r hlast
    by_cases hu : u = t
    · obtain ⟨v, e, hv, -⟩ := hlast
      rw [Store.lastOf?, hu, Store.box_eq_absent_iff.mp habsent] at hv
      cases hv
    · exact .inr ((Store.lastNames_congr (hvers u hu)).mpr hlast)

variable {b : Batch} (hid : b.transaction = t)

include hid

/-- Publishing for such a commit. -/
theorem published (hpub : Publisher.Published sky b a.scene g) :
    Moves [] a ⟨a.engine, g⟩ ∧ (a.store.Drained → g.store.Drained) := by
  subst hid
  rcases hpub.store with ⟨hstore, -⟩ | htopped
  · exact ⟨h.same hstore hpub.within, fun hdrained => hstore ▸ hdrained⟩
  · refine ⟨h.posted hgraph habsent htopped hpub.within, fun hdrained =>
      ⟨fun u hu => ?_, ?_⟩⟩
    · have hu := (htopped.grows.isGraph_iff fun o hk => nomatch hk).mp hu
      have hne : u ≠ b.transaction := fun heq => hgraph (heq ▸ hu)
      rw [htopped.grows.box_eq fun hk => hne (DocumentKey.outbox.inj hk)]
      exact hdrained.followed u hu
    · intro u e he
      by_cases hu : u = b.transaction
      · rw [hu, htopped.box] at he
        cases he
      · rw [htopped.grows.box_eq fun hk => hu (DocumentKey.outbox.inj hk)] at he
        exact hdrained.told u e he

theorem unpublished (hpub : Publisher.Unpublished sky b a.scene g) :
    Moves [] a ⟨a.engine, g⟩ := by
  subst hid
  rcases hpub.store with hstore | ⟨u, htopped⟩
  · exact h.same hstore hpub.within
  · exact h.posted hgraph habsent htopped hpub.within

end Fresh

end Orderly

end Stage

/-- **A full pass** commits profiles, or leaves the store; it fails in foul weather
    only. -/
theorem Pass.leads_full {sky : Weather} {g : Scene} {t : Instant} (levels : LevelConfig)
    (c : SpreadConfig) (hs : g.store.Sound) :
    Leads (World.Shows sky) (full levels c t) g
      (fun report g' => g'.topics = g.topics ∧
        ((report.eventTransaction = none ∧ g' = g) ∨
          ∃ tx id, report.eventTransaction = some id ∧
            g.store.submit tx = .ok (id, g'.store) ∧
            tx.validTime = t ∧ ∀ k, tx.Writes k → k.isProfile = true))
      (fun _ g' => ¬ sky.fair ∧ g' = g) := by
  obtain ⟨ops, deltas, hgives, -⟩ := hs.findAll_gives levels c t
  have hops (op : Operation) (hop : op ∈ ops) := hs.mem_findAll_operations hgives hop
  refine (leads_read_of_gives hgives).bind ?_
  rintro found g' ⟨rfl, rfl⟩
  refine Leads.step (leads_write c _ g') ?_ ?_
  · rintro e g'' ⟨hfair, rfl⟩
    -- a commit of writes is not refused, so only a fault can fail it
    refine ⟨fun hf => ?_, rfl⟩
    obtain ⟨x, hx⟩ := hfair hf
    have hsub : ∃ s', g''.store.submit ⟨t, ops⟩ = .ok (g''.store.nextId, s') :=
      Store.submit_of_isWrite fun op hop => (hops op hop).1
    obtain ⟨s', hs'⟩ := hsub
    cases hs'.symm.trans hx
  · rintro written g'' hwrote
    refine Leads.pure ?_
    rcases hwrote with ⟨-, rfl, rfl⟩ | ⟨-, id, s, rfl, hsub, rfl⟩
    · exact ⟨rfl, .inl ⟨rfl, rfl⟩⟩
    · refine ⟨rfl, .inr ⟨⟨t, ops⟩, id, rfl, hsub, rfl, ?_⟩⟩
      rintro k ⟨op, hop, -, rfl⟩
      exact (hops op hop).2

namespace Engine

variable {sky : Weather} {a : Stage} {s : System}

/-- The repair at the end of a recalculation. -/
private theorem leads_repair (c : Config) (h : a.Orderly)
    (hclock : ∀ t, sky.clock t → t ≤ Instant.latest)
    (republished retried : List TransactionId) :
    Leads (System.Shows sky) (do
        let full ← Work.act (Pass.full c.levels c.spread (← Work.act World.now))
        match full.eventTransaction with
        | none => return ⟨republished, retried, full⟩
        | some t =>
          Work.act (Publisher.publish c.publisher ⟨t, none, [], full.deltas⟩)
          return ⟨republished, retried, full⟩ : Work RecalculationReport) a
      (fun _ a' => a.Moves [] a' ∧ (a.store.Drained → a'.store.Drained))
      (fun _ a' => a.Moves [] a' ∧ ¬ sky.fair) := by
  refine Leads.step (Work.leads_act (Leads.lift (E := fun _ _ => False) ends_now)) ?_ ?_
  · rintro e a' ⟨g, rfl, hf⟩
    exact hf.elim
  rintro t a' ⟨g, rfl, hnow, rfl⟩
  refine Leads.step (Work.leads_act (Pass.leads_full c.levels c.spread h.boxed.sound)) ?_ ?_
  · rintro e a' ⟨g, rfl, hfair, rfl⟩
    exact ⟨.refl h, hfair⟩
  · rintro report a'
      ⟨g, rfl, htopics, ⟨hevent, rfl⟩ | ⟨tx, id, hevent, hsub, htime, hprofile⟩⟩
    · rw [hevent]
      exact Leads.pure ⟨.refl h, fun hdrained => hdrained⟩
    · rw [hevent]
      -- the commit of profiles is no attempt of a flush; its batch is published at once
      obtain ⟨hmoves, hdrained, hid, hgraph, habsent⟩ :=
        h.profiles hsub htopics (htime ▸ hclock t hnow) hprofile
      have h' := hmoves.orderly
      refine Leads.step (Work.leads_act (Publisher.leads_publish c.publisher
        (b := ⟨id, none, [], report.deltas⟩) h'.boxed hclock hid
        fun _ hcleared => nomatch habsent.symm.trans hcleared)) ?_ ?_
      · rintro e a' ⟨g', rfl, hpub⟩
        exact ⟨hmoves.trans (h'.unpublished hgraph habsent rfl hpub), hpub.unfair⟩
      · rintro - a' ⟨g', rfl, hpub⟩
        obtain ⟨hmoves', hdrained'⟩ := h'.published hgraph habsent rfl hpub
        exact Leads.pure ⟨hmoves.trans hmoves', fun hd => hdrained' (hdrained hd)⟩

/-! ## Retrying -/

/-- The flushes of retrying. -/
def retries : List Unfinished → System → List Attempt
  | [], _ => []
  | u :: us, s =>
    match Work.act (World.read (recover u)) s with
    | (.ok job, s) => ⟨job, s⟩ :: retries us (flush job s).2
    | (.error _, _) => []

/-- What was owed was taken up. -/
structure Retried (sky : Weather) (us : List Unfinished) (fs : List Attempt)
    (a a' : Stage) : Prop extends a.Moves fs a' where
  graph_iff : ∀ t, a'.store.IsGraph t ↔ a.store.IsGraph t
  box : ∀ t, (∀ u ∈ us, u.1.id ≠ t) → a'.store.box t = a.store.box t
  cleared : sky.fair → ∀ u ∈ us, a'.store.box u.1.id = .cleared

/-- One flush, and then the others. -/
private theorem Retried.cons {job : Batch} {u : Unfinished} {us : List Unfinished}
    {fs : List Attempt} {a₁ a' : Stage} (hid : job.transaction = u.1.id)
    (hflushed : Flushed sky job.transaction a a₁) (hmoves : a.Moves [⟨job, s⟩] a₁)
    (hus : ∀ v ∈ us, v.1.id ≠ u.1.id) (h : Retried sky us fs a₁ a') :
    Retried sky (u :: us) (⟨job, s⟩ :: fs) a a' := by
  -- the first flush leaves the boxes of the other commits alone
  have hbox : ∀ t, u.1.id ≠ t → a₁.store.box t = a.store.box t := by
    intro t ht
    refine hflushed.grows.box_eq ?_
    rintro (hk | hk)
    · cases hk
    · exact ht (hid.symm.trans (DocumentKey.outbox.inj hk).symm)
  refine ⟨hmoves.trans h.toMoves,
    fun t => (h.graph_iff t).trans (hflushed.grows.isGraph_iff Store.not_noted_origin),
      ?_, ?_⟩
  · intro t ht
    rw [h.box t fun v hv => ht v (List.mem_cons_of_mem _ hv),
      hbox t (ht u List.mem_cons_self)]
  · intro hfair v hv
    rcases List.mem_cons.mp hv with rfl | hv
    · rw [h.box _ hus, ← hid]
      rcases hflushed.outcome with ⟨-, hcleared⟩ | ⟨-, hno, -⟩
      · exact hcleared hfair
      · exact absurd hfair hno
    · exact h.cleared hfair v hv

theorem leads_retryAll (hclock : ∀ t, sky.clock t → t ≤ Instant.latest)
    (us : List Unfinished) :
    ∀ {a s}, a.Orderly → (∀ u ∈ us, a.store.Owes u) →
      us.Pairwise (fun u v => u.1.id.value < v.1.id.value) →
      Leads (Exactly (System.Shows sky)) (retryAll us) (a, s)
        (fun _ p => Retried sky us (retries us s) a p.1)
        (fun _ p => a.Moves (retries us s) p.1 ∧ ¬ sky.fair) := by
  induction us with
  | nil =>
      intro a s h _ _
      exact Leads.pure ⟨.refl h, fun _ => Iff.rfl, fun _ _ => rfl, fun _ _ hu => nomatch hu⟩
  | cons u us ih =>
      intro a s h howes hpairs
      obtain ⟨hfirst, hpairs⟩ := List.pairwise_cons.mp hpairs
      obtain ⟨job, hjob, hid, hawaits⟩ := recover_gives h.boxed (howes u List.mem_cons_self)
      -- commits are retried in order, so each of them once
      have hus : ∀ v ∈ us, v.1.id ≠ u.1.id := fun v hv heq =>
        absurd (hfirst v hv) (heq ▸ Nat.lt_irrefl _)
      refine Leads.step (Leads.exactly (Work.leads_act (leads_read_of_gives hjob))) ?_ ?_
      · rintro e ⟨a', s'⟩ ⟨⟨g, rfl, hfair, rfl⟩, hrun⟩
        have hnone : retries (u :: us) s = [] := by rw [retries, hrun]
        rw [hnone]
        exact ⟨.refl h, hfair⟩
      · rintro job' ⟨a', s₁⟩ ⟨⟨g, ha', rfl, rfl⟩, hrun⟩
        obtain rfl : a' = a := ha'
        have hfs : retries (u :: us) s = ⟨job', s₁⟩ :: retries us (flush job' s₁).2 := by
          rw [retries, hrun]
        rw [hfs]
        have hflush : Ends (Exactly (System.Shows sky)) (flush job') (a', s₁) fun _ p =>
            Flushed sky job'.transaction a' p.1 ∧ a'.Moves [⟨job', s₁⟩] p.1 ∧
              p.2 = (flush job' s₁).2 := by
          rintro _ ⟨hs, rfl⟩
          obtain ⟨a₁, ha₁, hflushed, hmoves⟩ := h.flush hs hclock hawaits
          exact ⟨(a₁, _), ⟨ha₁, rfl⟩, hflushed, hmoves, rfl⟩
        refine Leads.bind (Leads.lift hflush) ?_
        rintro - ⟨a₁, s₂⟩ ⟨hflushed, hmoves, rfl⟩
        -- the flush of `u` leaves what is owed to the others
        have howes₁ : ∀ v ∈ us, a₁.store.Owes v := by
          intro v hv
          have hv' := howes v (List.mem_cons_of_mem _ hv)
          refine ⟨hflushed.grows.transaction? hv'.logged, hv'.graph, ?_, hv'.unsettled⟩
          rw [hflushed.grows.box_eq, hv'.state]
          rintro (hk | hk)
          · cases hk
          · exact hus v hv ((DocumentKey.outbox.inj hk).trans hid)
        refine Leads.step (ih hmoves.orderly howes₁ hpairs) ?_ ?_
        · rintro e p ⟨hrest, hfair⟩
          exact ⟨hmoves.trans hrest, hfair⟩
        · rintro ts p hretried
          exact Leads.pure (hretried.cons hid hflushed hmoves hus)

/-! ## The whole -/

/-- The flushes of a recalculation. -/
def recalculationAttempts (s : System) : List Attempt :=
  match Work.act (Publisher.republishPending s.engine.config.publisher) s with
  | (.error _, _) => []
  | (.ok ts, s) =>
    match unfinished (Work.modifyBarrier (fun b => ts.foldl Barrier.complete b) s).2 with
    | (.error _, _) => []
    | (.ok us, s) => retries us s

/-- **A recalculation** is a part of a run; in fair weather it succeeds and leaves
    nothing to do. -/
theorem leads_recalculate (h : a.Orderly) (hclock : ∀ t, sky.clock t → t ≤ Instant.latest) :
    Leads (Exactly (System.Shows sky)) recalculate (a, s)
      (fun _ p => a.Moves (recalculationAttempts s) p.1 ∧ (sky.fair → p.1.store.Drained))
      (fun _ p => a.Moves (recalculationAttempts s) p.1 ∧ ¬ sky.fair) := by
  refine Leads.step (Leads.exactly Work.leads_config) (fun _ _ hf => hf.1.elim) ?_
  rintro c ⟨a', s'⟩ ⟨⟨hc, ha'⟩, hconfig⟩
  obtain rfl : a' = a := ha'
  obtain ⟨hc', rfl⟩ : s.engine.config = c ∧ s = s' :=
    ⟨Except.ok.inj (Prod.mk.inj hconfig).1, (Prod.mk.inj hconfig).2⟩
  refine Leads.step (Leads.exactly (Work.leads_act
    (Publisher.leads_republishPending c.publisher h.boxed))) ?_ ?_
  · rintro e ⟨a₁, s₁⟩ ⟨⟨g, rfl, hfair, rfl⟩, hrun⟩
    have hnone : recalculationAttempts s = [] := by rw [recalculationAttempts, hc', hrun]
    rw [hnone]
    exact ⟨.refl h, hfair⟩
  · rintro ts ⟨a₁, s₁⟩ ⟨⟨g, rfl, es, hes, hrepublished⟩, hrun⟩
    refine Leads.bind (Leads.lift (Ends.exactly (Work.ends_modifyBarrier _))) ?_
    rintro _ ⟨a₂, s₂⟩ ⟨rfl, hmodify⟩
    have hmoves := Stage.Orderly.republished hrepublished hes h
    have h₂ := hmoves.orderly
    refine Leads.step (Leads.exactly (leads_unfinished h₂.boxed.sound h₂.marks)) ?_ ?_
    · rintro e ⟨a₃, s₃⟩ ⟨⟨hlooked, hfair⟩, hunfinished⟩
      have hnone : recalculationAttempts s = [] := by
        rw [recalculationAttempts, hc', hrun]
        dsimp only
        rw [hmodify, hunfinished]
      rw [hnone]
      exact ⟨hmoves.trans (h₂.looked hlooked), hfair⟩
    · rintro us ⟨a₃, s₃⟩ ⟨⟨hlooked, hmem, hpairs⟩, hunfinished⟩
      have hfs : recalculationAttempts s = retries us s₃ := by
        rw [recalculationAttempts, hc', hrun]
        dsimp only
        rw [hmodify, hunfinished]
      rw [hfs]
      have hmoves := hmoves.trans (h₂.looked hlooked)
      obtain ⟨n, rfl, -⟩ := hlooked
      have h₃ := hmoves.orderly
      refine Leads.step (leads_retryAll hclock us h₃ (fun u hu => (hmem u).mp hu) hpairs)
        ?_ ?_
      · rintro e p ⟨hretried, hfair⟩
        exact ⟨hmoves.trans hretried, hfair⟩
      · rintro retried ⟨a₄, s₄⟩ hretried
        have hmoves := hmoves.trans hretried.toMoves
        have hdrained : sky.fair → a₄.store.Drained := by
          intro hfair
          refine ⟨fun t ht => ?_, fun t e he => ?_⟩
          · by_cases hu : ∃ u ∈ us, u.1.id = t
            · obtain ⟨u, hu, rfl⟩ := hu
              rw [hretried.cleared hfair u hu]
              rfl
            · -- what was not taken up was not owed
              by_contra hstate
              rw [hretried.box t fun u hu' hid => hu ⟨u, hu', hid⟩] at hstate
              obtain ⟨u, howes, hid⟩ := Store.exists_owes h₃.boxed.sound
                ((hretried.graph_iff t).mp ht) hstate
              exact hu ⟨u, (hmem u).mpr howes, hid⟩
          · by_cases hu : ∃ u ∈ us, u.1.id = t
            · obtain ⟨u, hu, rfl⟩ := hu
              cases (hretried.cleared hfair u hu).symm.trans he
            · rw [hretried.box t fun u hu' hid => hu ⟨u, hu', hid⟩] at he
              exact Stage.told_of_republished hrepublished hes hfair he
        refine (Leads.exactly (leads_repair c hmoves.orderly hclock ts retried)).imp ?_ ?_
        · rintro r p ⟨⟨hrepair, hkeeps⟩, -⟩
          rw [← List.append_nil (retries us s₃)]
          exact ⟨hmoves.trans hrepair, fun hfair => hkeeps (hdrained hfair)⟩
        · rintro e p ⟨⟨hrepair, hfair⟩, -⟩
          rw [← List.append_nil (retries us s₃)]
          exact ⟨hmoves.trans hrepair, hfair⟩

end Engine

end ClearanceGraph
