import ClearanceGraph.Proofs.Engine.Watermark
import ClearanceGraph.Proofs.Store.Likeness

/-! # Aftermath — what an engine writes besides the commits of calls

    Following a commit, telling what came of it, and recalculating write profiles and
    boxes only, and no box of a commit that was not made yet.  `Store.Trails s s'` says
    this of all that was written between two stores, and whatever fails, it holds of
    every flush and of every recalculation (`Engine.ends_flush_follows`,
    `Engine.leads_recalculate_follows`).

    So facts and the records of origins stay as calls left them, and the box of a commit
    is empty when it is made (`Stage.Numbered.performAll`). -/

namespace ClearanceGraph

/-- A transaction writes profiles, and boxes of commits up to a number. -/
def Transaction.FollowsUp (n : Nat) (tx : Transaction) : Prop :=
  ∀ k, tx.Writes k → k.isProfile = true ∨ ∃ t : TransactionId, k = .outbox t ∧ t.value ≤ n

namespace Store

variable {s s₁ s' : Store} {tx : Transaction} {id t : TransactionId} {n : Nat}

/-- Something is kept only of commits that were made. -/
def Issued (s : Store) : Prop := ∀ t, s.versionsOf (.outbox t) ≠ [] → t.value ≤ s.log.length

/-- What was written between two stores are profiles, and boxes of commits that were
    made. -/
structure Trails (s s' : Store) : Prop where
  evolves : s.Evolves (fun tx => ∀ k, tx.Writes k → k.isGraph = false) s'
  issued : s'.Issued

theorem issued_empty : Store.empty.Issued := fun _ hne => absurd rfl hne

/-- A commit is one more in the log. -/
theorem length_submit (hsub : s.submit tx = .ok (id, s')) :
    s'.log.length = s.log.length + 1 := by
  obtain ⟨-, -, hlog, -, -⟩ := submit_eq_ok hsub
  rw [hlog, List.length_append, List.length_singleton]

/-- A commit that writes boxes of earlier commits only. -/
theorem Issued.submit (h : s.Issued) (hsub : s.submit tx = .ok (id, s'))
    (htx : ∀ t, tx.Writes (.outbox t) → t.value ≤ s.log.length) : s'.Issued := by
  intro t hne
  have hlength := length_submit hsub
  by_cases hw : tx.Writes (.outbox t)
  · exact Nat.le_trans (htx t hw) (by omega)
  · rw [versionsOf_submit_of_not_writes hsub ((tx.lastWrite?_eq_none_iff _).mpr hw)] at hne
    exact Nat.le_trans (h t hne) (by omega)

/-- The box of the next commit is empty. -/
theorem Issued.versionsOf_nextId (h : s.Issued) (hs : s.Sound) :
    s.versionsOf (.outbox s.nextId) = [] := by
  by_contra hne
  have := h _ hne
  have := hs.nextId_value
  omega

theorem Evolves.length_le {A : Transaction → Prop} (h : s.Evolves A s') :
    s.log.length ≤ s'.log.length :=
  h.keeps (I := fun s' => s.log.length ≤ s'.log.length)
    (fun hle _ hsub => Nat.le_trans hle (Nat.le.intro (length_submit hsub).symm))
      (Nat.le_refl _)

namespace Trails

theorem refl (h : s.Issued) : s.Trails s := ⟨.refl, h⟩

/-- Work after work is work. -/
theorem trans (h : s.Trails s₁) (h' : s₁.Trails s') : s.Trails s' :=
  ⟨h.evolves.trans h'.evolves, h'.issued⟩

/-- Commits of work on commits that were made. -/
theorem of_evolves (hi : s.Issued) (hn : n ≤ s.log.length)
    (h : s.Evolves (Transaction.FollowsUp n) s') : s.Trails s' := by
  refine ⟨h.mono fun tx htx k hk => ?_, ?_⟩
  · rcases htx k hk with hprofile | ⟨t, rfl, -⟩
    · exact DocumentKey.isGraph_of_isProfile hprofile
    · rfl
  · have hkept := h.keeps (I := fun s => s.Issued ∧ n ≤ s.log.length)
        (fun hI htx hsub => ?_)
      ⟨hi, hn⟩
    · exact hkept.1
    · refine ⟨hI.1.submit hsub fun t ht => ?_, ?_⟩
      · rcases htx _ ht with hprofile | ⟨u, heq, hu⟩
        · cases hprofile
        · obtain rfl := DocumentKey.outbox.inj heq
          exact Nat.le_trans hu hI.2
      · have := length_submit hsub
        omega

end Trails

end Store

/-- What discharges a commit that is there follows it up. -/
theorem Transaction.DischargesBox.followsUp {tx : Transaction} {t : TransactionId} {n : Nat}
    (h : tx.DischargesBox t) (ht : t.value ≤ n) : tx.FollowsUp n :=
  fun k hk => .inr ⟨t, h.own k hk, ht⟩

namespace Stage

/-- After a store only work on commits was done. -/
structure Follows (s : Store) (a : Stage) : Prop where
  sound : a.store.Sound
  trails : s.Trails a.store

namespace Follows

variable {s : Store} {a a' : Stage} {b : Barrier}

theorem refl (hs : a.store.Sound) (hi : a.store.Issued) : a.Follows a.store :=
  ⟨hs, .refl hi⟩

theorem setBarrier (h : a.Follows s) : (a.setBarrier b).Follows s := ⟨h.sound, h.trails⟩

/-- Looking changes no store. -/
theorem looked (h : a.Follows s) (hlooked : a.Looked a') : a'.Follows s := by
  obtain ⟨n, rfl, -⟩ := hlooked
  exact ⟨h.sound, h.trails⟩

theorem trans (h : a.Follows s) (h' : a'.Follows a.store) : a'.Follows s :=
  ⟨h'.sound, h.trails.trans h'.trails⟩

end Follows

end Stage

namespace Engine

variable {sky : Weather} {s : Store} {a : Stage}

/-! ## Parts of a run -/

/-- What is done to the world, if its commits are work on commits that were made. -/
private theorem leads_followsUp {α : Type} {A : Transaction → Prop} {x : Act α}
    (h : a.Follows s)
    (hx : Leads (World.Shows sky) x a.scene (fun _ g => a.store.Evolves A g.store)
      (fun _ g => a.store.Evolves A g.store))
        (hA : ∀ tx, A tx → tx.FollowsUp a.store.log.length) :
    Leads (System.Shows sky) (Work.act x) a
      (fun _ a' => a'.Follows s ∧ a'.engine = a.engine ∧ a.store.Evolves A a'.store)
      (fun _ a' => a'.Follows s) := by
  have hkeeps : ∀ g : Scene, a.store.Evolves A g.store → Stage.Follows s ⟨a.engine, g⟩ :=
    fun g hevolves => ⟨hevolves.sound h.sound,
      h.trails.trans (.of_evolves h.trails.issued (Nat.le_refl _) (hevolves.mono hA))⟩
  refine (Work.leads_act hx).imp ?_ ?_
  · rintro r a' ⟨g, rfl, hevolves⟩
    exact ⟨hkeeps g hevolves, rfl, hevolves⟩
  · rintro e a' ⟨g, rfl, hevolves⟩
    exact hkeeps g hevolves

/-- Reading. -/
private theorem leads_reads_follows {α : Type} (r : Reading α) (h : a.Follows s) :
    Leads (System.Shows sky) (Work.act (World.read r)) a
      (fun x a' => r.Gives a.store x ∧ a' = a) (fun _ a' => a'.Follows s) := by
  refine (Work.leads_act (leads_read r)).imp ?_ ?_
  · rintro x a' ⟨g, rfl, hx, rfl⟩
    exact ⟨hx, rfl⟩
  · rintro e a' ⟨g, rfl, -, rfl⟩
    exact h

/-- Publishing the batch of a commit that was made. -/
theorem leads_publish_follows (c : PublisherConfig) {b : Batch} (h : a.Follows s)
    (hb : b.transaction.value ≤ a.store.log.length) :
    Leads (System.Shows sky) (Work.act (Publisher.publish c b)) a (fun _ a' => a'.Follows s)
      (fun _ a' => a'.Follows s) :=
  (leads_followsUp h ((Publisher.commits_publish_own c b).leads h.sound) fun _ htx =>
    htx.followsUp hb).imp (fun _ _ hx => hx.1) fun _ _ hx => hx

/-- Publishing what waits. -/
private theorem leads_republish_follows (c : PublisherConfig) (h : a.Follows s) :
    Leads (System.Shows sky) (Work.act (Publisher.republishPending c)) a
      (fun _ a' => a'.Follows s ∧ a'.engine = a.engine ∧
        a.store.Evolves Transaction.Discharges a'.store) (fun _ a' => a'.Follows s) := by
  refine (leads_followsUp (A := fun tx => tx.Discharges ∧ tx.FollowsUp a.store.log.length)
    h ?_
    fun _ htx => htx.2).imp (fun _ _ ⟨hf, he, hevolves⟩ =>
      ⟨hf, he, hevolves.mono fun _ htx => htx.1⟩) fun _ _ hx => hx
  refine Leads.step (leads_read Publisher.waiting) ?_ ?_
  · rintro e g ⟨-, rfl⟩
    exact .refl
  · rintro es g ⟨hes, rfl⟩
    -- an entry that waits is that of a commit
    refine ((Publisher.commits_republishAll c es).mono ?_).leads h.sound
    rintro tx ⟨e, he, htx⟩
    refine ⟨htx.discharges, htx.followsUp (h.trails.issued _ fun hnil => ?_)⟩
    have hvisible := Publisher.visible_of_waiting h.sound hes he
    rw [Store.visible_of_versionsOf_eq_nil hnil] at hvisible
    cases hvisible

/-- A pass after a commit, and publishing what came of it. -/
private theorem leads_carryOn_follows {seed : Batch} (c : Config) (h : a.Follows s)
    (hseed : seed.transaction.value ≤ a.store.log.length) :
    Leads (System.Shows sky) (do
        let report ← Work.act (Pass.follow c.levels c.spread seed true)
        Work.act (Publisher.publish c.publisher { seed with deltas := report.deltas }) :
          Work Unit) a
      (fun _ a' => a'.Follows s) (fun _ a' => a'.Follows s) := by
  refine (leads_followsUp h
    ((Pass.commits_follow c.levels c.spread seed true).leads h.sound)
    fun tx htx k hk => ?_).bind ?_
  · rcases htx k hk with hprofile | rfl
    · exact .inl hprofile
    · exact .inr ⟨_, rfl, hseed⟩
  · rintro report a' ⟨h', -, hevolves⟩
    exact leads_publish_follows _ h' (Nat.le_trans hseed hevolves.length_le)

/-- Levels follow a commit, and their changes are published, by work on commits. -/
private theorem leads_advance_follows {job : Batch} (h : a.Follows s)
    (hjob : job.transaction.value ≤ a.store.log.length) :
    Leads (System.Shows sky) (advance job) a (fun _ a' => a'.Follows s)
      (fun _ a' => a'.Follows s) := by
  refine Leads.step Work.leads_config (fun _ _ hf => hf.elim) ?_
  rintro c a' ⟨rfl, rfl⟩
  refine (leads_reads_follows _ h).bind ?_
  rintro state a' ⟨hgives, rfl⟩
  have hstate := (Store.flushState_gives _ _).unique hgives
  cases state with
  | unrecorded => exact leads_carryOn_follows _ h hjob
  | stopped b =>
      exact leads_carryOn_follows _ h (h.sound.transaction_of_stopped hstate ▸ hjob)
  | recorded =>
      refine (leads_reads_follows _ h).bind ?_
      rintro entry a' ⟨hentry, rfl⟩
      cases entry with
      | none => exact Leads.pure h
      | some e =>
          exact leads_publish_follows _ h
            (Publisher.transaction_of_entry h.sound hentry ▸ hjob)

/-- The barrier is no part of the store. -/
private theorem ends_setBarrier_follows (f : Barrier → Barrier) (h : a.Follows s) :
    Ends (System.Shows sky) (Work.modifyBarrier f) a fun _ a' => a'.Follows s :=
  (Work.ends_modifyBarrier f).imp fun _ _ heq => heq ▸ h.setBarrier

/-- **A flush** only works on its commit. -/
theorem ends_flush_follows {job : Batch} (h : a.Follows s)
    (hjob : job.transaction.value ≤ a.store.log.length) :
    Ends (System.Shows sky) (flush job) a fun _ a' => a'.Follows s := by
  refine Ends.bind (leads_advance_follows h hjob) ?_
  intro r a' hr
  cases r with
  | ok u => exact Ends.bind (ends_setBarrier_follows _ hr) fun _ _ h => Ends.pure h
  | error e => cases e <;> exact Ends.pure hr

/-! ## Recalculations -/

/-- A batch that is rebuilt is that of its commit, or the one that was noted. -/
private theorem transaction_of_recover {u : Unfinished} {job : Batch}
    (h : (recover u).Gives s job) :
    job.transaction = u.1.id ∨ u.2 = .stopped job := by
  rw [recover] at h
  split at h
  · next b hstopped =>
    obtain rfl := h.unique (Reading.gives_pure s b)
    exact .inr hstopped
  · refine .inl ?_
    obtain ⟨cs, -, h⟩ := h.of_bind
    split at h
    · rw [h.unique (Reading.gives_pure s _)]
    · rw [h.unique (Reading.gives_pure s _)]

/-- Unfinished flushes are taken up one after another. -/
private theorem leads_retryAll_follows (us : List Unfinished) : ∀ {a : Stage}, a.Follows s →
    (∀ u ∈ us, u.1.id.value ≤ a.store.log.length ∧ ∀ b, u.2 = .stopped b →
      b.transaction = u.1.id) →
    Leads (System.Shows sky) (retryAll us) a (fun _ a' => a'.Follows s)
      (fun _ a' => a'.Follows s) := by
  induction us with
  | nil => exact fun h _ => Leads.pure h
  | cons u us ih =>
      intro a h hus
      obtain ⟨hle, hstopped⟩ := hus u List.mem_cons_self
      refine (leads_reads_follows _ h).bind ?_
      rintro job a₁ ⟨hjob, rfl⟩
      have hid : job.transaction = u.1.id := (transaction_of_recover hjob).elim id
        (hstopped job)
      refine (Leads.lift (ends_flush_follows (.refl h.sound h.trails.issued)
        (hid ▸ hle))).bind fun _ a₂ h₂ => ?_
      refine (ih (h.trans h₂) fun v hv => ?_).bind fun _ _ h => Leads.pure h
      obtain ⟨hle, hstopped⟩ := hus v (List.mem_cons_of_mem _ hv)
      exact ⟨Nat.le_trans hle h₂.trails.evolves.length_le, hstopped⟩

/-- A recalculation up to its full pass. -/
def untilPass (c : Config) : Work RecalculationReport := do
  let republished ← Work.act (Publisher.republishPending c.publisher)
  Work.modifyBarrier fun b => republished.foldl Barrier.complete b
  let retried ← retryAll (← unfinished)
  let full ← Work.act (Pass.full c.levels c.spread (← Work.act World.now))
  return ⟨republished, retried, full⟩

/-- What is left to do after the full pass. -/
def tell (c : Config) (r : RecalculationReport) : Work RecalculationReport := do
  match r.full.eventTransaction with
  | none => return r
  | some t =>
    Work.act (Publisher.publish c.publisher ⟨t, none, [], r.full.deltas⟩)
    return r

/-- A recalculation is a pass over everything, and then what there is to tell. -/
theorem recalculate_eq : recalculate = (do
    let c ← Work.config
    tell c (← untilPass c)) := by
  simp only [untilPass, tell, bind_assoc, pure_bind]
  rfl

/-- Where the full pass committed, a recalculation ends as publishing does. -/
theorem recalculate_eq_of_pass {s s₁ : System} {r : RecalculationReport} {t : TransactionId}
    (hpass : untilPass s.engine.config s = (.ok r, s₁))
    (ht : r.full.eventTransaction = some t) :
    recalculate s =
      ((Publisher.publish s.engine.config.publisher ⟨t, none, [], r.full.deltas⟩
        s₁.world).1.map fun _ => r,
      { s₁ with world := (Publisher.publish s.engine.config.publisher
        ⟨t, none, [], r.full.deltas⟩ s₁.world).2 }) := by
  have hconfig : Work.config s = (.ok s.engine.config, s) := rfl
  rw [recalculate_eq, Act.bind_apply, hconfig]
  dsimp only
  rw [Act.bind_apply, hpass]
  dsimp only
  simp only [tell, ht]
  rw [Act.bind_apply, Work.act]
  rcases Publisher.publish s.engine.config.publisher ⟨t, none, [], r.full.deltas⟩
    s₁.world with
    ⟨e | u, w⟩ <;> rfl

/-- The full pass writes profiles; nothing is kept of its commit, and it tells an object
    once. -/
private theorem leads_full_follows (c : Config) (t : Instant) (h : a.Follows s) :
    Leads (System.Shows sky) (Work.act (Pass.full c.levels c.spread t)) a
      (fun report a' => a'.Follows s ∧ (report.deltas.map (·.reference)).Nodup ∧
        ∀ t, report.eventTransaction = some t →
          t.value ≤ a'.store.log.length ∧ a'.store.versionsOf (.outbox t) = [])
      (fun _ a' => a'.Follows s) := by
  have hnodup : Leads (World.Shows sky) (Pass.full c.levels c.spread t) a.scene
      (fun report _ => (report.deltas.map (·.reference)).Nodup) (fun _ _ => True) := by
    refine Leads.step (leads_read _) (fun _ _ _ => trivial) ?_
    rintro ⟨ops, deltas⟩ g ⟨hgives, rfl⟩
    refine Leads.step (Pass.leads_write _ _ _) (fun _ _ _ => trivial) fun written g' _ => ?_
    exact Leads.pure (h.sound.nodup_findAll_deltas hgives)
  refine (Work.leads_act ((Pass.leads_full c.levels c.spread h.sound).and
    (fun _ _ _ => World.Shows.unique) hnodup)).imp ?_ ?_
  · rintro report a' ⟨g, rfl, ⟨-, hpass⟩, hnodup⟩
    rcases hpass with ⟨hevent, rfl⟩ | ⟨tx, id, hevent, hsub, -, hprofile⟩
    · exact ⟨h, hnodup, fun t ht => nomatch hevent.symm.trans ht⟩
    · have hevolves : a.store.Evolves (Transaction.FollowsUp a.store.log.length) g.store :=
        .of_submit (fun k hk => .inl (hprofile k hk)) hsub
      refine ⟨h.trans
        ⟨hevolves.sound h.sound, .of_evolves h.trails.issued (Nat.le_refl _) hevolves⟩,
        hnodup, fun t ht => ?_⟩
      obtain rfl := Option.some.inj (hevent.symm.trans ht)
      obtain ⟨-, rfl, -⟩ := Store.submit_eq_ok hsub
      -- the number of the commit is new, so nothing has been noted under it
      have hno : ¬ tx.Writes (.outbox a.store.nextId) := fun hw => nomatch hprofile _ hw
      refine ⟨?_, ?_⟩
      · exact Nat.le_of_eq (h.sound.nextId_value.trans (Store.length_submit hsub).symm)
      · rw [Store.versionsOf_submit_of_not_writes hsub
          ((tx.lastWrite?_eq_none_iff _).mpr hno)]
        exact h.trails.issued.versionsOf_nextId h.sound
  · rintro e a' ⟨g, rfl, ⟨-, rfl⟩, -⟩
    exact h

/-- **A recalculation up to its full pass**: nothing is kept yet of the commit of that
    pass. -/
theorem leads_untilPass (c : Config) (h : a.Follows s)
    (hmarks : a.store.Marks a.engine.watermark) :
    Leads (System.Shows sky) (untilPass c) a
      (fun r a' => a'.Follows s ∧ (r.full.deltas.map (·.reference)).Nodup ∧
        ∀ t, r.full.eventTransaction = some t →
          t.value ≤ a'.store.log.length ∧ a'.store.versionsOf (.outbox t) = [])
      (fun _ a' => a'.Follows s) := by
  refine (leads_republish_follows c.publisher h).bind ?_
  rintro ts a₁ ⟨h₁, hengine, hevolves⟩
  have hmarks₁ : a₁.store.Marks a₁.engine.watermark :=
    hengine ▸ hmarks.of_discharges h.sound hevolves
  refine Leads.bind (Leads.lift (Work.ends_modifyBarrier _)) ?_
  rintro - a₂ rfl
  refine Leads.step (leads_unfinished h₁.sound hmarks₁)
    (fun _ _ hl => h₁.setBarrier.looked hl.1) ?_
  -- what is retried is in the log, and what stopped is of its own commit
  rintro us a₃ ⟨hlooked, howes, -⟩
  have h₃ := h₁.setBarrier.looked hlooked
  obtain ⟨n, rfl, -⟩ := hlooked
  refine (leads_retryAll_follows us h₃ fun u hu => ?_).bind fun retried a₄ h₄ => ?_
  · have hu := (howes u).mp hu
    refine ⟨(h₁.sound.id_of_transaction? hu.logged).2.2, fun b hb => ?_⟩
    exact h₁.sound.transaction_of_stopped (hu.state.trans hb)
  refine Leads.step (Work.leads_act (Leads.lift (E := fun _ _ => False) ends_now)) ?_ ?_
  · rintro e a' ⟨g, rfl, hf⟩
    exact hf.elim
  rintro t a₅ ⟨g, rfl, -, rfl⟩
  exact (leads_full_follows c t h₄).bind fun full a' hfull => Leads.pure hfull

/-- **A recalculation** only works on commits that were made. -/
theorem leads_recalculate_follows (h : a.Follows s)
    (hmarks : a.store.Marks a.engine.watermark) :
    Leads (System.Shows sky) recalculate a (fun _ a' => a'.Follows s)
    (fun _ a' => a'.Follows s) := by
  rw [recalculate_eq]
  refine Leads.step Work.leads_config (fun _ _ hf => hf.elim) ?_
  rintro c a' ⟨-, rfl⟩
  refine (leads_untilPass c h hmarks).bind ?_
  rintro r a₁ ⟨h₁, -, hfresh⟩
  rw [tell]
  split
  · exact Leads.pure h₁
  · next t ht =>
    exact (leads_publish_follows c.publisher h₁ (hfresh t ht).1).bind fun _ _ h =>
      Leads.pure h

/-! ## Calls -/

/-- A call commits to no box, and then its commit is worked on. -/
private theorem leads_take_issued (c : Call) (hs : a.store.Sound) (hi : a.store.Issued) :
    Leads (System.Shows sky) (take c) a (fun _ a' => a'.store.Issued)
    (fun _ a' => a'.store.Issued) := by
  rw [take_eq]
  refine Leads.step Work.leads_config (fun _ _ hf => hf.elim) ?_
  rintro config a' ⟨-, rfl⟩
  refine Ends.bind (Work.ends_modifyBarrier Barrier.begin) ?_
  rintro - a₁ rfl
  refine Ends.bind (Work.leads_act (Call.leads_perform _ _ c)) ?_
  rintro (e | x) a₂ ⟨g, rfl, hg⟩
  · obtain rfl : g = _ := hg
    exact Ends.bind (Work.ends_modifyBarrier Barrier.drop) fun _ a₃ h₃ =>
      Ends.pure (show a₃.store.Issued from h₃ ▸ hi)
  · rcases hg with ⟨-, rfl, rfl⟩ | ⟨p, id, s', hplan, hsub, rfl, rfl⟩
    · exact Ends.bind (Work.ends_modifyBarrier Barrier.drop) fun _ a₃ h₃ =>
        Ends.pure (show a₃.store.Issued from h₃ ▸ hi)
    · -- a plan writes facts and one record, so it issues no note
      have hissued : s'.Issued := hi.submit hsub fun t ht => by
        obtain ⟨-, o, -, honly⟩ := Call.plan_writes hs hplan
        rcases honly _ ht with ⟨f, hf⟩ | ho
        · cases hf
        · cases ho
      obtain ⟨-, rfl, -⟩ := Store.submit_eq_ok hsub
      refine Ends.bind (Work.ends_modifyBarrier fun b => b.commit a'.store.nextId) ?_
      rintro - a₃ rfl
      refine Ends.bind (ends_flush_follows (.refl (hs.submit hsub) hissued) ?_)
        fun _ a₄ h₄ =>
        Ends.pure h₄.trails.issued
      exact Nat.le_of_eq (hs.nextId_value.trans (Store.length_submit hsub).symm)

end Engine

namespace Stage

variable {sky : Weather} {a : Stage} {s : System}

/-- An engine keeps something only of commits that were made. -/
structure Numbered (a : Stage) : Prop extends a.Marked where
  issued : a.store.Issued

namespace Numbered

/-- **A deed** keeps this, whatever fails. -/
theorem perform (h : a.Numbered) (hs : System.Shows sky a s) (d : Deed) :
    ∃ a', System.Shows sky a' (d.perform s) ∧ a'.Numbered := by
  obtain ⟨a', hs', hmarked⟩ := h.toMarked.perform hs d
  have hissued : ∃ a'', System.Shows sky a'' (d.perform s) ∧ a''.store.Issued := by
    cases d with
    | call c =>
        exact (Engine.leads_take_issued c h.sound h.issued).ends (fun _ _ h => h)
          (fun _ _ h => h) s hs
    | recalculate =>
        exact (Engine.leads_recalculate_follows (.refl h.sound h.issued) h.marks).ends
          (fun _ _ h => h.trails.issued) (fun _ _ h => h.trails.issued) s hs
    | look =>
        have hlook : ∀ a', a.Looked a' → a'.store.Issued := fun _ hl =>
          ((Follows.refl h.sound h.issued).looked hl).trails.issued
        exact (Engine.leads_deferred h.sound h.marks).ends (fun _ _ hl => hlook _ hl.1)
          (fun _ _ hl => hlook _ hl.1) s hs
    | restart c =>
        rw [Deed.perform]
        split
        · next e _ => exact ⟨⟨e, a.scene⟩, ⟨rfl, hs.world⟩, h.issued⟩
        · exact ⟨a, hs, h.issued⟩
  obtain ⟨a'', hs'', hissued⟩ := hissued
  exact ⟨a', hs', hmarked, hs''.unique hs' ▸ hissued⟩

/-- **A run** keeps this. -/
theorem performAll (ds : List Deed) : ∀ {a s}, a.Numbered → System.Shows sky a s →
    ∃ a', System.Shows sky a' (Deed.performAll ds s) ∧ a'.Numbered := by
  induction ds with
  | nil => exact fun h hs => ⟨_, hs, h⟩
  | cons d ds ih =>
      intro a s h hs
      obtain ⟨a₁, hs₁, h₁⟩ := h.perform hs d
      exact ih h₁ hs₁

/-- An engine that starts on an empty store. -/
theorem of_starts {last : Instant} (h : s.Starts last) :
    ∃ a, System.Shows (.upto last) a s ∧ a.Numbered := by
  obtain ⟨c, hc⟩ := h.engine
  exact ⟨⟨s.engine, ⟨.empty, s.world.broker.topics⟩⟩,
    ⟨rfl, h.alone.1, rfl, h.alone.2, h.clock, fun hfair => hfair.elim⟩,
    ⟨Store.sound_empty, (Stage.marks_of_start hc _).1⟩, Store.issued_empty⟩

end Numbered

end Stage

end ClearanceGraph
