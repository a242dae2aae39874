import ClearanceGraph.Store.Reading

/-! # Readings that succeed

    A reading either gives a value or fails; the number of its asks matters only
    to a store that can be out of reach.  `Reading.Gives` says that a reading gives
    a value on a store, and follows a reading step by step. -/

namespace ClearanceGraph

namespace Reading

variable {α β : Type}

/-- A reading gives a value on a store. -/
def Gives (r : Reading α) (s : Store) (a : α) : Prop := (r s).1 = .ok a

/-- What one reading after another comes to. -/
theorem bind_fst (r : Reading α) (f : α → Reading β) (s : Store) :
    ((r >>= f) s).1 = match (r s).1 with
      | .ok x => (f x s).1
      | .error e => .error e := by
  show (Reading.bind r f s).1 = _
  rw [Reading.bind]
  rcases r s with ⟨e | x, n⟩ <;> rfl

/-- What asks nothing may come first. -/
theorem pure_bind (a : α) (f : α → Reading β) :
    ((Pure.pure a : Reading α) >>= f) = f a := by
  funext s
  show ((f a s).1, 0 + (f a s).2) = f a s
  rw [Nat.zero_add]

theorem gives_pure (s : Store) (a : α) : Gives (Pure.pure a) s a := rfl

theorem Gives.bind {r : Reading α} {f : α → Reading β} {s : Store} {a : α} {b : β}
    (hr : r.Gives s a) (hf : (f a).Gives s b) : (r >>= f).Gives s b := by
  rw [Gives, bind_fst, hr]
  exact hf

/-- A reading of two parts that gives a value gives one in each part. -/
theorem Gives.of_bind {r : Reading α} {f : α → Reading β} {s : Store} {b : β}
    (h : (r >>= f).Gives s b) : ∃ a, r.Gives s a ∧ (f a).Gives s b := by
  rw [Gives, bind_fst] at h
  cases hr : (r s).1 with
  | error e =>
      rw [hr] at h
      cases h
  | ok a =>
      rw [hr] at h
      exact ⟨a, hr, h⟩

/-- What is thrown is no value. -/
theorem not_gives_throw (e : GraphError) (s : Store) (a : α) :
    ¬ Gives (throw e : Reading α) s a := by
  intro h
  cases h

theorem gives_ask (f : Store → α) (s : Store) : (ask f).Gives s (f s) := rfl

theorem gives_query (t : Instant) (q : Query) (s : Store) :
    (query t q).Gives s (s.query t q) := rfl

theorem gives_get (t : Instant) (k : DocumentKey) (s : Store) :
    (get t k).Gives s (s.visible t k) := by
  refine (gives_query t (.key k) s).bind ?_
  show Except.ok (s.visible t k).toList.head? = _
  cases s.visible t k <;> rfl

/-- A reading that gives a value gives no other. -/
theorem Gives.unique {r : Reading α} {s : Store} {a b : α} (ha : r.Gives s a)
    (hb : r.Gives s b) :
    a = b := Except.ok.inj (ha.symm.trans hb)

end Reading

end ClearanceGraph
