import ClearanceGraph.Proofs.Engine.Barrier
import ClearanceGraph.Proofs.Engine.Recovery

/-! # Between operations — what an engine keeps in order

    Whatever fails, an engine leaves its world orderly (`Stage.Orderly`): the store is
    boxed, levels have followed every commit below the watermark, and what is pending
    was committed by reconciliation and has something in its box, or nothing yet.

    `Stage.Moves` is what a part of a run does, with the flushes in it.  Besides the
    order it says that what was safe stays so, and that every change of a flush is
    safe after it.  Parts compose (`Moves.trans`), so each operation is followed part
    by part. -/

namespace ClearanceGraph

namespace Stage

variable {a a' : Stage} {P : DocumentKey → Prop} {sky : Weather} {t : TransactionId}

/-- What holds of an engine between its operations. -/
structure Orderly (a : Stage) : Prop where
  boxed : a.store.Boxed
  marks : a.store.Marks a.engine.watermark
  pending : ∀ t, a.engine.barrier.pending.contains t = true →
    a.store.IsGraph t ∧ a.store.box t ≠ .cleared

/-- Commits that reconciliation did not make keep a stage in order, if recorded boxes
    stay recorded and those of pending commits are not cleared. -/
theorem Orderly.of_grows (h : a.Orderly) (hboxed : a'.store.Boxed)
    (hgrows : a.store.Grows P a'.store) (hP : ∀ o, ¬ P (.origin o))
    (hmark : a'.engine.watermark = a.engine.watermark)
    (hsettled : ∀ t, a.store.IsGraph t → (a.store.box t).state = .recorded →
      (a'.store.box t).state = .recorded)
    (hpending : ∀ t, a'.engine.barrier.pending.contains t = true →
      a.engine.barrier.pending.contains t = true ∧
        (a.store.box t ≠ .cleared → a'.store.box t ≠ .cleared)) : a'.Orderly := by
  refine ⟨hboxed, ⟨?_, fun t ht hgraph => ?_⟩, fun t ht => ?_⟩
  · rw [hmark]
    exact Nat.le_trans h.marks.bounded (Nat.succ_le_succ hgrows.log.length_le)
  · have hgraph := (hgrows.isGraph_iff hP).mp hgraph
    exact hsettled t hgraph (h.marks.passed t (hmark ▸ ht) hgraph)
  · obtain ⟨hold, hbox⟩ := hpending t ht
    obtain ⟨hgraph, hopen⟩ := h.pending t hold
    exact ⟨(hgrows.isGraph_iff hP).mpr hgraph, hbox hopen⟩

end Stage

/-! ## Flushes in a run -/

/-- A flush that is begun: its batch, and the system then. -/
structure Attempt where
  job : Batch
  start : System

namespace Attempt

/-- The flush starts with an object if it was noted last. -/
def CarriesOn (f : Attempt) (r : Reference) : Prop :=
  f.start.world.backend.store.CarriesOn f.job.transaction r

/-- The flushes of a commit start with an object if it was noted last. -/
def CarryOn (fs : List Attempt) (t : TransactionId) (r : Reference) : Prop :=
  ∀ f ∈ fs, f.job.transaction = t → f.CarriesOn r

theorem CarryOn.of_append {fs fs' : List Attempt} {t : TransactionId} {r : Reference}
    (h : CarryOn (fs ++ fs') t r) : CarryOn fs t r ∧ CarryOn fs' t r :=
  ⟨fun f hf => h f (List.mem_append_left _ hf), fun f hf =>
    h f (List.mem_append_right _ hf)⟩

/-- The flush changes the level of an object, or whether it has a profile: one of its
    commits does so at its own valid time. -/
def Changes (f : Attempt) (r : Reference) : Prop :=
  f.start.world.backend.store.Changed (Engine.flush f.job f.start).2.world.backend.store r

instance (f : Attempt) (r : Reference) : Decidable (f.Changes r) :=
  inferInstanceAs (Decidable (Store.Changed _ _ r))

end Attempt

namespace Stage

variable {a a₁ a' : Stage} {fs fs' : List Attempt} {sky : Weather} {s : System}
    {job : Batch}

/-- A part of a run, with the flushes in it. -/
structure Moves (fs : List Attempt) (a a' : Stage) : Prop where
  orderly : a'.Orderly
  within : a.scene.Within a'.scene
  graph : ∀ t, a.store.IsGraph t → a'.store.IsGraph t
  safe : ∀ t r, Attempt.CarryOn fs t r → a.scene.Safe t r → a'.scene.Safe t r
  flushed : ∀ f ∈ fs, a'.store.IsGraph f.job.transaction
  reported : ∀ f ∈ fs, ∀ r, Attempt.CarryOn fs f.job.transaction r → f.Changes r →
    a'.scene.Safe f.job.transaction r

namespace Moves

/-- A part without flushes. -/
theorem of_quiet (h : a'.Orderly) (hwithin : a.scene.Within a'.scene)
    (hgraph : ∀ t, a.store.IsGraph t → a'.store.IsGraph t)
    (hnotes : ∀ t r, a.store.LastNames t r → a'.scene.Safe t r) : Moves [] a a' where
  orderly := h
  within := hwithin
  graph := hgraph
  safe := fun t r _ hr => hr.elim (fun htold => .inl (htold.of_within hwithin)) (hnotes t r)
  flushed := fun _ hf => (nomatch hf)
  reported := fun _ hf => (nomatch hf)

theorem refl (h : a.Orderly) : Moves [] a a :=
  of_quiet h (.refl _) (fun _ ht => ht) fun _ _ hr => .inr hr

/-- One part after another. -/
theorem trans (h : Moves fs a a₁) (h' : Moves fs' a₁ a') : Moves (fs ++ fs') a a' := by
  refine ⟨h'.orderly, h.within.trans h'.within, fun t ht => h'.graph t (h.graph t ht), ?_,
    ?_, ?_⟩
  · intro t r hcarry hr
    obtain ⟨hcarry, hcarry'⟩ := hcarry.of_append
    exact h'.safe t r hcarry' (h.safe t r hcarry hr)
  · intro f hf
    rcases List.mem_append.mp hf with hf | hf
    · exact h'.graph _ (h.flushed f hf)
    · exact h'.flushed f hf
  · intro f hf r hcarry hr
    obtain ⟨hcarry, hcarry'⟩ := hcarry.of_append
    rcases List.mem_append.mp hf with hf | hf
    · exact h'.safe _ r hcarry' (h.reported f hf r hcarry hr)
    · exact h'.reported f hf r hcarry' hr

end Moves

namespace Orderly

variable (h : a.Orderly)

include h

/-- A look at the log. -/
theorem looked (hlooked : a.Looked a') : Moves [] a a' := by
  obtain ⟨n, rfl, hmarks⟩ := hlooked
  exact .of_quiet ⟨h.boxed, hmarks, h.pending⟩ (.refl _) (fun _ ht => ht) fun _ _ hr =>
    .inr hr

/-- A barrier that holds only commits of reconciliation with something to do. -/
theorem setBarrier {b : Barrier} (hb : ∀ t, b.pending.contains t = true →
    a.store.IsGraph t ∧ a.store.box t ≠ .cleared) : Moves [] a (a.setBarrier b) :=
  .of_quiet ⟨h.boxed, h.marks, hb⟩ (.refl _) (fun _ ht => ht) fun _ _ hr => .inr hr

/-- **A commit that posts nothing** is a part of a run. -/
theorem silent {tx : Transaction} {id : TransactionId} {g : Scene}
    (hsub : a.store.submit tx = .ok (id, g.store)) (htopics : g.topics = a.scene.topics)
    (hle : tx.validTime ≤ Instant.latest) (hno : ∀ t, ¬ tx.Writes (.outbox t)) :
    Moves [] a ⟨a.engine, g⟩ := by
  have hgrows : a.store.Grows tx.Writes g.store :=
    .of_submit h.boxed.sound hsub fun _ hk => hk
  have hbox := Store.box_of_silent hsub hno
  have hgraph : ∀ t, a.store.IsGraph t → g.store.IsGraph t := fun t ⟨c, hc, hc'⟩ =>
    ⟨c, hgrows.transaction? hc, hc'⟩
  refine .of_quiet ⟨h.boxed.submit_of_silent hsub hno hle, ⟨?_, fun t ht ht' => ?_⟩,
    fun t ht => ?_⟩ (.of_topics htopics) hgraph
    fun t r hlast =>
      .inr ((Store.lastNames_congr (Store.versionsOf_of_silent hsub hno t)).mpr hlast)
  · exact Nat.le_trans h.marks.bounded (Nat.succ_le_succ hgrows.log.length_le)
  · -- the new commit is not below the watermark
    have hlength : t.value ≤ a.store.log.length := by
      have hbounded := h.marks.bounded
      change t.value < a.engine.watermark at ht
      omega
    show (g.store.box t).state = _
    rw [hbox]
    exact h.marks.passed t ht (hgrows.isGraph_of_le hlength ht')
  · obtain ⟨hold, hopen⟩ := h.pending t ht
    exact ⟨hgraph t hold, hbox t ▸ hopen⟩

/-- **A flush** is a part of a run. -/
theorem flush (hs : System.Shows sky a s) (hclock : ∀ t, sky.clock t → t ≤ Instant.latest)
    (hjob : a.store.Awaits job) : ∃ a', System.Shows sky a' (Engine.flush job s).2 ∧
      Engine.Flushed sky job.transaction a a' ∧ Moves [⟨job, s⟩] a a' := by
  obtain ⟨a', ha', hflushed⟩ := Engine.ends_flush h.boxed hclock hjob s hs
  have hboxes : ∀ t, t ≠ job.transaction →
      a'.store.versionsOf (.outbox t) = a.store.versionsOf (.outbox t) := by
    intro t ht
    refine hflushed.grows.kept _ ?_
    rintro (hk | hk)
    · cases hk
    · exact ht (DocumentKey.outbox.inj hk)
  refine ⟨a', ha', hflushed, ?_⟩
  have hcarries : ∀ r, Attempt.CarryOn [⟨job, s⟩] job.transaction r →
      a.store.CarriesOn job.transaction r := by
    intro r hall
    have hcarry : s.world.backend.store.CarriesOn job.transaction r :=
      hall _ List.mem_cons_self rfl
    rwa [hs.world.store] at hcarry
  refine ⟨?_, hflushed.within, fun t ht =>
    (hflushed.grows.isGraph_iff Store.not_noted_origin).mpr ht, ?_, ?_, ?_⟩
  · refine h.of_grows hflushed.boxed hflushed.grows Store.not_noted_origin ?_ ?_ ?_
    · rcases hflushed.outcome with ⟨heng, -⟩ | ⟨heng, -⟩
      · rw [heng]
        rfl
      · rw [heng]
    · -- the flush was for a commit that levels have not followed everywhere
      intro t _ hstate
      have ht : t ≠ job.transaction := fun heq => hjob.unsettled (heq ▸ hstate)
      rwa [Store.box_congr (hboxes t ht)]
    · intro t ht
      rcases hflushed.outcome with ⟨heng, -⟩ | ⟨heng, -, hopen⟩
      · rw [heng] at ht
        obtain ⟨hold, hne⟩ := Barrier.contains_complete_iff.mp ht
        exact ⟨hold, fun hbox => by rwa [Store.box_congr (hboxes t hne)]⟩
      · rw [heng] at ht
        refine ⟨ht, fun hbox => ?_⟩
        by_cases hne : t = job.transaction
        · exact hne ▸ hopen
        · rwa [Store.box_congr (hboxes t hne)]
  · intro t r hall hr
    by_cases ht : t = job.transaction
    · subst ht
      rcases hr with htold | hlast
      · exact .inl (htold.of_within hflushed.within)
      · exact hflushed.safe r (hcarries r hall) (.inr hlast)
    · exact hr.imp (fun htold => htold.of_within hflushed.within)
        (Store.lastNames_congr (hboxes t ht)).mpr
  · intro f hf
    obtain rfl := List.mem_singleton.mp hf
    exact (hflushed.grows.isGraph_iff Store.not_noted_origin).mpr hjob.graph
  · intro f hf r hall hr
    obtain rfl := List.mem_singleton.mp hf
    rw [Attempt.Changes, hs.world.store, ha'.world.store] at hr
    exact hflushed.safe r (hcarries r hall) (.inl hr)

end Orderly

end Stage

end ClearanceGraph
