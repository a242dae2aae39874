import ClearanceGraph.Proofs.Origin.Call

/-! # Parts — what plans are read of

    A plan asks for the latest record of its origin and when it was seen, for the
    documents of facts at one instant, for the edges at removed objects, and for the
    records that keep a fact.  It is given up only for reasons that stay.
    `Reading.Composed P` says that `P` holds of each of these parts and of one reading
    after another.  Then it holds of the plan of every call, whatever is done about
    orphaned edges (`Reading.Composed.plan`).

    The first use is that plans are given up for good: no failure of a plan itself is
    one that may pass (`Call.plan_failsForGood`). -/

namespace ClearanceGraph

/-- A property of readings that holds of the parts of plans, and of one reading after
    another. -/
structure Reading.Composed (P : ∀ {α : Type}, Reading α → Prop) : Prop where
  pure : ∀ {α : Type} (x : α), P (Pure.pure x : Reading α)
  /-- A failure that stays. -/
  throw : ∀ {α : Type} {e : GraphError}, Reconcile.mayPass e = false →
    P (throw e : Reading α)
  bind : ∀ {α β : Type} {r : Reading α} {f : α → Reading β}, P r →
    (∀ x, P (f x)) → P (r >>= f)
  get : ∀ t f, P (Reading.get t (.fact f))
  touching : ∀ t q, P (Reading.query t (.touching q))
  owners : ∀ f, P (Ledger.owners f)
  previous : ∀ o, P (Ledger.previous o)
  lastSeen : ∀ o, P (Ledger.lastSeen o)

namespace Reading.Composed

open Plan

variable {P : ∀ {α : Type}, Reading α → Prop} (h : Composed P)

include h

/-- A put reads one document. -/
private theorem putIfChanged (p : Plan) (f : Fact) (c : Content) :
    P (p.putIfChanged f c) := by
  refine h.bind (h.get _ _) fun current => ?_
  cases current with
  | none => exact h.pure _
  | some d =>
      dsimp only
      split <;> exact h.pure _

private theorem putAll (es : List (Fact × Content)) : ∀ p, P (Plan.putAll es p) := by
  induction es with
  | nil => exact fun p => h.pure p
  | cons e es ih => exact fun p => h.bind (h.putIfChanged p _ _) ih

/-- A drop reads the owners of the fact, and the fact itself or what takes its place. -/
private theorem dropFact (o : OriginId) (f : Fact) (p : Plan) (gone : KeySet Reference) :
    P (Plan.dropFact o f p gone) := by
  refine h.bind (h.owners f) fun rs => ?_
  split
  · dsimp only
    split
    · exact h.bind (h.putIfChanged _ _ _) fun q => h.pure _
    · exact h.pure _
  · refine h.bind (h.get _ _) fun current => ?_
    cases current with
    | none => exact h.pure _
    | some d =>
        dsimp only
        split <;> exact h.pure _

private theorem dropAll (o : OriginId) (fs : List Fact) :
    ∀ p gone, P (Plan.dropAll o fs p gone) := by
  induction fs with
  | nil => exact fun p gone => h.pure _
  | cons f fs ih => exact fun p gone => h.bind (h.dropFact o f p gone) fun q => ih q.1 q.2

/-- Edges are read for one object after another. -/
private theorem removeEdges (asserted : Table Fact Content) (rs : List Reference) :
    ∀ p, P (Plan.removeEdges asserted rs p) := by
  induction rs with
  | nil => exact fun p => h.pure p
  | cons r rs ih => exact fun p => h.bind (h.touching _ r) fun ds => ih _

/-- A retraction drops facts, and then removes edges if the policy says so. -/
private theorem retract (policy : CascadePolicy) (o : OriginId) (fs : List Fact)
    (asserted : Table Fact Content) (p : Plan) :
      P (Plan.retract policy o fs asserted p) := by
  refine h.bind (h.dropAll o fs p _) fun q => ?_
  cases policy with
  | retain => exact h.pure _
  | retractOrphanedEdges => exact h.bind (h.removeEdges asserted _ _) fun q => h.pure _

private theorem checkPresent (present gone : KeySet Reference) (t : Instant) (d : Dependent)
    (r : Reference) : P (Plan.checkPresent present gone t d r) := by
  rw [Plan.checkPresent]
  split
  · exact h.pure _
  · split
    · exact h.throw rfl
    · refine h.bind (h.get t _) fun found => ?_
      cases found with
      | none => exact h.throw rfl
      | some d => exact h.pure _

/-- Checks are made one after another. -/
private theorem checkAll (present gone : KeySet Reference) (t : Instant)
    (ns : List (Dependent × Reference)) : P (Plan.checkAll present gone t ns) := by
  induction ns with
  | nil => exact h.pure ()
  | cons n ns ih => exact h.bind (h.checkPresent present gone t n.1 n.2) fun _ => ih

private theorem checkNotStale (o : OriginId) (t : Instant) :
    P (Plan.checkNotStale o t) := by
  refine h.bind (h.lastSeen o) fun seen => ?_
  cases seen with
  | none => exact h.pure ()
  | some u =>
      dsimp only
      split
      · exact h.throw rfl
      · exact h.pure ()

private theorem checkMethod (r : Run) (previous : Option OriginRecord) :
    P (Plan.checkMethod r previous) := by
  cases previous with
  | none => exact h.pure ()
  | some l =>
      rw [Plan.checkMethod]
      split
      · exact h.throw rfl
      · exact h.pure ()

/-- **Planning a run** has what its parts have. -/
private theorem ofRun (policy : CascadePolicy) (r : Run) : P (Plan.ofRun policy r) := by
  rw [ofRun_eq]
  refine h.bind (h.checkNotStale _ _) fun _ => h.bind (h.previous _) fun previous => ?_
  refine h.bind (h.checkMethod r previous) fun _ => ?_
  refine h.bind (h.putAll _ _) fun p => h.bind (h.retract _ _ _ _ _) fun q => ?_
  refine h.bind (h.checkAll _ _ _ _) fun _ => ?_
  dsimp only
  split <;> exact h.pure _

/-- **Planning a retirement** has what its parts have. -/
private theorem ofRetirement (policy : CascadePolicy) (o : OriginId) (t : Instant) :
    P (Plan.ofRetirement policy o t) := by
  refine h.bind (h.checkNotStale o t) fun _ => h.bind (h.previous o) fun previous => ?_
  cases previous with
  | none => exact h.pure none
  | some r => exact h.bind (h.retract _ _ _ _ _) fun q => h.pure _

/-- **What holds of the parts** holds of the plan of every call. -/
theorem plan (policy : CascadePolicy) (c : Call) : P (c.plan policy) := by
  cases c with
  | reconcile r => exact h.ofRun policy r
  | retire o t => exact h.ofRetirement policy o t

end Reading.Composed

/-! ## Failures of plans -/

namespace Reading

variable {α β : Type}

/-- A reading fails only for reasons that stay. -/
def FailsForGood (r : Reading α) : Prop :=
  ∀ s e, (r s).1 = .error e → Reconcile.mayPass e = false

/-- One reading after another fails for good if both do. -/
theorem FailsForGood.bind {r : Reading α} {f : α → Reading β} (hr : r.FailsForGood)
    (hf : ∀ x, (f x).FailsForGood) : (r >>= f).FailsForGood := by
  intro s e h
  rw [bind_fst] at h
  cases hx : (r s).1 with
  | error e' =>
      rw [hx] at h
      cases h
      exact hr s e hx
  | ok x =>
      rw [hx] at h
      exact hf x s e h

/-- A reading that always gives something does not fail at all. -/
theorem failsForGood_of_gives {r : Reading α} (h : ∀ s, ∃ x, r.Gives s x) :
    r.FailsForGood := by
  intro s e he
  obtain ⟨x, hx⟩ := h s
  cases hx.symm.trans he

private theorem history_failsForGood (k : DocumentKey) : (history k).FailsForGood :=
  failsForGood_of_gives fun s => by
    obtain ⟨ds, hds, -⟩ := s.exists_history_gives k
    exact ⟨ds, hds⟩

/-- The ledger fails if its entry is no record, and this does not pass. -/
private theorem previous_failsForGood (o : OriginId) :
    (Ledger.previous o).FailsForGood := by
  refine .bind (history_failsForGood _) fun ds => ?_
  have hpure : ∀ x : Option OriginRecord, (Pure.pure x : Reading _).FailsForGood :=
    fun x => failsForGood_of_gives fun s => ⟨x, rfl⟩
  split
  · exact hpure _
  · split
    · exact hpure _
    · exact hpure _
    · -- another document under the key of an origin breaks the program, and stays
      intro s e he
      cases he
      rfl

/-- Failing for good is kept by composition. -/
theorem composed_failsForGood : Composed FailsForGood where
  pure x := failsForGood_of_gives fun _ => ⟨x, rfl⟩
  throw he s e h := by
    cases h
    exact he
  bind hr hf := hr.bind hf
  get t f := failsForGood_of_gives fun s => ⟨_, gives_get t (.fact f) s⟩
  touching t q := failsForGood_of_gives fun s => ⟨_, gives_query t (.touching q) s⟩
  owners f := failsForGood_of_gives fun s => ⟨_, s.owners_gives f⟩
  previous := previous_failsForGood
  lastSeen o := failsForGood_of_gives fun s => by
    obtain ⟨seen, hseen, -⟩ := s.lastSeen_gives o
    exact ⟨seen, hseen⟩

end Reading

/-- **Plans are given up for good**: what keeps a call from making a plan does not
    pass. -/
theorem Call.plan_failsForGood (policy : CascadePolicy) (c : Call) :
    (c.plan policy).FailsForGood :=
  Reading.composed_failsForGood.plan policy c

end ClearanceGraph
