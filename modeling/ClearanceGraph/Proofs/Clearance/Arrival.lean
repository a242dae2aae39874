import ClearanceGraph.Proofs.Clearance.Course

/-! # Arrival — what a recorded pass leaves in the outbox

    `Pass.Kept` is what holds at every instant of a recorded pass: each level that was
    changed is among the deltas, and the note that was written last names all of them.

    On the way the notes are partial (`Pass.Underway`), so wherever the pass stops,
    levels are known not to have followed everywhere.  At its end the last note says
    that they have (`Pass.Arrived`).  Every point of a pass is one or the other
    (`underway_or_arrived`).

    `leads_follow` puts this together.  In fair weather nothing stops the pass. -/

namespace ClearanceGraph

namespace Pass

/-- What holds of a recorded pass that started on the store `s₀`, wherever it is: every
    change is among its deltas, and what was noted last names all of them, or nothing
    was changed yet. -/
structure Kept (seed : Batch) (s₀ s : Store) (p : Progress) : Prop where
  boxed : s.Boxed
  grows : s₀.Grows (Store.Noted seed.transaction) s
  filed : Settle.Filed p.deltas
  seeded : ∀ r, seed.Names r → p.deltas.contains r = true
  told : ∀ r, s₀.Changed s r → p.deltas.contains r = true
  named : (s.lastOf? (.outbox seed.transaction) = s₀.lastOf? (.outbox seed.transaction) ∧
      ∀ r, ¬ s₀.Changed s r) ∨
    ∀ r, p.deltas.contains r = true → s.LastNames seed.transaction r

/-- A pass on the way, which has visited some instants. -/
structure Underway (seed : Batch) (start : Instant) (s₀ s : Store) (us : List Instant)
    (p : Progress) : Prop extends Kept seed s₀ s p where
  ahead : ∃ v, p.checkpoints.contains v = true
  ascends : us.Pairwise (· < ·)
  after : ∀ u ∈ us, ∀ v, p.checkpoints.contains v = true → u < v
  starts : ∀ v, v ∈ us ∨ p.checkpoints.contains v = true → v = start ∨ v ∈ s₀.starts
  visited : ∀ k, ∀ v ∈ s.versionsOf k, v ∈ s₀.versionsOf k ∨ v.validFrom ∈ us
  /-- All notes so far are partial. -/
  box : s.box seed.transaction = .absent ∨ ∃ e, s.box seed.transaction = .entry e ∧
    e.propagated = false ∧ (p.batch seed).isEmpty = false

/-- A pass that has come to its end. -/
structure Arrived (seed : Batch) (s₀ s : Store) (p : Progress) :
    Prop extends Kept seed s₀ s p where
  empty : ∀ v, p.checkpoints.contains v = false
  cleared : (p.batch seed).isEmpty = true → s.box seed.transaction = .cleared
  entry : (p.batch seed).isEmpty = false → ∃ e, s.box seed.transaction = .entry e

variable {levels : LevelConfig} {c : SpreadConfig} {seed : Batch} {start t : Instant}
  {s₀ s s' : Store} {us : List Instant} {p p' : Progress} {rest : KeySet Instant}
  {dirty : KeySet Reference}

theorem Underway.state_ne_recorded (h : Underway seed start s₀ s us p) :
    (s.box seed.transaction).state ≠ .recorded := by
  rw [Box.state_ne_recorded_iff]
  exact h.box.imp_right fun ⟨e, he, hpart, _⟩ => ⟨e, he, hpart⟩

/-- All instants of a pass are in time. -/
theorem Underway.le_latest (h : Underway seed start s₀ s us p) (h₀ : s₀.Upto Instant.latest)
    (hstart : start ≤ Instant.latest) {v : Instant} (hv : p.checkpoints.contains v = true) :
    v ≤ Instant.latest := by
  rcases h.starts v (.inr hv) with rfl | hv
  · exact hstart
  · obtain ⟨w, hw, rfl⟩ := List.mem_map.mp hv
    obtain ⟨ws, hws, hmem⟩ := List.mem_flatten.mp hw
    obtain ⟨k, hk⟩ := (Table.mem_values_iff _).mp hws
    refine h₀ k w ?_
    rw [Store.versionsOf, hk]
    exact hmem

/-! ## One instant -/

section Next

variable (hdeltas : p'.deltas = Settle.fold p.deltas
    (s.finding levels c dirty p.watched t).deltas)
  (hnotes : s.Notes seed.transaction t (s.finding levels c dirty p.watched t).deltas
    (Outbox.posted? t (p'.batch seed) p'.checkpoints.isEmpty) s')

include hdeltas

private theorem contains_next_iff {r : Reference} : p'.deltas.contains r = true ↔
    p.deltas.contains r = true ∨
      ∃ d ∈ (s.finding levels c dirty p.watched t).deltas, d.reference = r := by
  rw [hdeltas, Settle.contains_fold_iff]

private theorem nonempty_next (h : (p.batch seed).isEmpty = false) :
    (p'.batch seed).isEmpty = false := by
  rw [isEmpty_batch_eq_false_iff] at h ⊢
  exact h.imp_right fun ⟨r, hr⟩ => ⟨r, (contains_next_iff hdeltas).mpr (.inl hr)⟩

include hnotes

private theorem Kept.next (h : Kept seed s₀ s p) : Kept seed s₀ s' p' := by
  have hfiled : Settle.Filed p'.deltas := hdeltas ▸ h.filed.fold _
  refine ⟨hnotes.boxed, h.grows.trans hnotes.grows, hfiled, fun r hr => ?_, fun r hr => ?_,
    .inr fun r hr => ?_⟩
  · exact (contains_next_iff hdeltas).mpr (.inl (h.seeded r hr))
  · rw [contains_next_iff hdeltas]
    rcases hr.of_grows h.boxed.sound h.grows hnotes.grows with hr | hr
    · exact .inl (h.told r hr)
    · exact .inr (hnotes.told r hr)
  · -- a batch with a delta is noted with all of its deltas
    have hne : (p'.batch seed).isEmpty = false :=
      isEmpty_batch_eq_false_iff.mpr (.inr ⟨r, hr⟩)
    obtain ⟨id, hlast⟩ := hnotes.last (some ⟨p'.batch seed, t, p'.checkpoints.isEmpty⟩) (by
      simp [Outbox.posted?, hne])
    exact ⟨_, _, hlast, rfl, (names_batch_iff hfiled).mpr hr⟩

/-- **One instant**: the pass is still on its way, or it has arrived. -/
private theorem Underway.next (h : Underway seed start s₀ s us p) {us' : List Instant}
    (hcourse : (Point.mk us' s' p').OnCourse levels c dirty s₀ start) :
    Underway seed start s₀ s' us' p' ∨ Arrived seed s₀ s' p' := by
  have hkept := h.toKept.next hdeltas hnotes
  cases hend : p'.checkpoints.isEmpty with
  | true =>
      rw [hend] at hnotes
      refine .inr ⟨hkept, (KeySet.isEmpty_iff _).mp hend, fun hempty => ?_, fun hne => ?_⟩
      · -- where there is nothing to tell, nothing was noted before
        have hbox := hnotes.box none (by simp [Outbox.posted?, hempty])
        refine hbox.resolve_right ?_
        rintro ⟨-, hsome⟩
        obtain ⟨e, -, -, hne⟩ := h.box.resolve_left hsome
        rw [nonempty_next hdeltas hne] at hempty
        cases hempty
      · rcases hnotes.box (some ⟨p'.batch seed, t, true⟩)
          (by simp [Outbox.posted?, hne]) with
          hnew | ⟨hold, hsome⟩
        · exact ⟨_, hnew⟩
        · obtain ⟨e, he, -⟩ := h.box.resolve_left hsome
          exact ⟨e, hold.trans he⟩
  | false =>
      rw [hend] at hnotes
      refine .inl ⟨hkept, ?_, hcourse.ascends, hcourse.ahead, hcourse.starts,
        hcourse.new, ?_⟩
      · by_contra hno
        have hempty : p'.checkpoints.isEmpty = true :=
          (KeySet.isEmpty_iff _).mpr fun v => Bool.eq_false_iff.mpr fun hv => hno ⟨v, hv⟩
        rw [hempty] at hend
        cases hend
      · cases hne : (p'.batch seed).isEmpty with
        | true =>
            rw [Store.box_congr (hnotes.silent (by simp [Outbox.posted?, hne]))]
            refine .inl (h.box.resolve_right ?_)
            rintro ⟨e, -, -, hne'⟩
            rw [nonempty_next hdeltas hne'] at hne
            cases hne
        | false =>
            rcases hnotes.box (some ⟨p'.batch seed, t, false⟩)
              (by simp [Outbox.posted?, hne]) with
              hnew | ⟨hold, hsome⟩
            · exact .inr ⟨_, hnew, rfl, rfl⟩
            · obtain ⟨e, he, hpart, -⟩ := h.box.resolve_left hsome
              exact .inr ⟨e, hold.trans he, hpart, rfl⟩

end Next

/-! ## The pass -/

variable {sky : Weather} {g : Scene}

/-- What a pass can start from: a commit without a note, or with a partial one that the
    seed has something to tell after. -/
def Resumes (s : Store) (seed : Batch) : Prop :=
  s.box seed.transaction = .absent ∨ ∃ e, s.box seed.transaction = .entry e ∧
    e.propagated = false ∧ seed.isEmpty = false

private theorem underway_start {tx : Committed} {w : KeySet Reference} {r : Report}
    (h : s.Boxed) (hresumes : Resumes s seed) :
    Underway seed tx.validTime s s []
      ⟨KeySet.ofList [tx.validTime], w, Settle.fold Table.empty seed.deltas, r⟩ := by
  have hcontains : ∀ r, (Settle.fold Table.empty seed.deltas).contains r = true ↔
      seed.Names r := by
    intro r
    rw [Settle.contains_fold_iff]
    exact or_iff_right fun hno => nomatch hno
  have hstart : ∀ v, Table.contains (KeySet.ofList [tx.validTime]) v = true ↔
      v = tx.validTime := by
    intro v
    rw [KeySet.contains_ofList_iff, List.mem_singleton]
  -- the seed counts as told already, and its own time is the only one to visit
  refine ⟨⟨h, .refl _, Settle.filed_empty.fold _, fun r hr => (hcontains r).mpr hr,
    fun r hr => absurd hr (s.not_changed_self r), .inl ⟨rfl, s.not_changed_self⟩⟩,
    ⟨_, (hstart _).mpr rfl⟩, .nil, fun _ hu => (nomatch hu), fun v hv => ?_,
      fun _ _ hv => .inl hv,
    hresumes.imp_right ?_⟩
  · rcases hv with hv | hv
    · cases hv
    · exact .inl ((hstart v).mp hv)
  · rintro ⟨e, he, hpart, hne⟩
    refine ⟨e, he, hpart, isEmpty_batch_eq_false_iff.mpr ?_⟩
    rcases (Bool.and_eq_false_iff.mp hne) with hne | hne
    · exact .inl (List.isEmpty_eq_false_iff.mp hne)
    · obtain ⟨d, hd⟩ := List.exists_mem_of_ne_nil _ (List.isEmpty_eq_false_iff.mp hne)
      exact .inr ⟨_, (hcontains _).mpr ⟨d, hd, rfl⟩⟩

/-- **Every point of a pass** is on the way, or it is the end. -/
theorem underway_or_arrived {tx : Committed} (h : s₀.Boxed)
    (htx : s₀.transaction? seed.transaction = some tx) (hresumes : Resumes s₀ seed)
    (n : Nat) :
    Underway seed tx.validTime s₀ (point levels c seed s₀ tx n).store
        (point levels c seed s₀ tx n).visited (point levels c seed s₀ tx n).progress ∨
      Arrived seed s₀ (point levels c seed s₀ tx n).store
        (point levels c seed s₀ tx n).progress := by
  obtain ⟨hid, hle⟩ := h.le_of_transaction? htx
  -- on the instants that were visited
  induction n with
  | zero => exact .inl (underway_start h hresumes)
  | succ n ih =>
      cases hpop : KeySet.popMin? (point levels c seed s₀ tx n).progress.checkpoints with
      | none =>
          have hsame : point levels c seed s₀ tx (n + 1) = point levels c seed s₀ tx n :=
            Point.next_of_ended hpop
          rwa [hsame]
      | some q =>
          obtain ⟨t, rest⟩ := q
          have hnext : point levels c seed s₀ tx (n + 1) =
              (point levels c seed s₀ tx n).visit levels c seed tx.validTime
                tx.touched t rest :=
            Point.next_of_popMin? hpop
          have ht := KeySet.contains_of_popMin? hpop
          rcases ih with hunderway | harrived
          · have hcourse : (point levels c seed s₀ tx (n + 1)).OnCourse levels c
                tx.touched s₀ tx.validTime := onCourse_point h.sound (n + 1)
            rw [hnext] at hcourse ⊢
            have hwrote : (point levels c seed s₀ tx n).store.Wrote
                ((point levels c seed s₀ tx n).writing levels c seed tx.validTime
                  tx.touched t rest)
                ((point levels c seed s₀ tx n).visit levels c seed tx.validTime tx.touched t
                  rest).store := Point.wrote_visit
            refine Underway.next (t := t) ?_ ?_ hunderway hcourse
            · rfl
            refine Store.notes_of_write levels c tx.touched _ hunderway.boxed
              (Nat.le_trans hid hunderway.grows.log.length_le) hunderway.state_ne_recorded
              (hunderway.le_latest h.upto hle ht) ?_ hwrote
            rintro e x he rfl
            obtain ⟨rfl, hne⟩ := Outbox.eq_of_posted? he
            exact ⟨rfl, rfl, hne⟩
          · rw [harrived.empty] at ht
            cases ht

/-- **A recorded pass** comes to its end, or stops on the way, which does not happen in
    fair weather. -/
theorem leads_follow {tx : Committed} (h : g.store.Boxed)
    (htx : g.store.transaction? seed.transaction = some tx)
    (hresumes : Resumes g.store seed) :
    Leads (World.Shows sky) (follow levels c seed true) g
      (fun report g' => g'.topics = g.topics ∧
        ∃ p, Arrived seed g.store g'.store p ∧ report.deltas = p.deltas.values)
      (fun _ g' => g'.topics = g.topics ∧ ¬ sky.fair ∧
        ∃ us p, Underway seed tx.validTime g.store g'.store us p) := by
  refine (leads_follow_points h.sound htx).imp ?_ ?_
  · rintro report g' ⟨n, hended, rfl, rfl⟩
    refine ⟨rfl, _, (underway_or_arrived h htx hresumes n).resolve_left fun hunderway =>
      ?_, rfl⟩
    obtain ⟨v, hv⟩ := hunderway.ahead
    rw [KeySet.popMin?_eq_none hended v] at hv
    cases hv
  · rintro e g' ⟨hfair, n, hmore, rfl⟩
    refine ⟨rfl, hfair, _, _, (underway_or_arrived h htx hresumes n).resolve_right
      fun harrived => ?_⟩
    obtain ⟨⟨v, rest⟩, hpop⟩ := Option.ne_none_iff_exists'.mp hmore
    have hv := KeySet.contains_of_popMin? hpop
    rw [harrived.empty] at hv
    cases hv

end Pass

end ClearanceGraph
