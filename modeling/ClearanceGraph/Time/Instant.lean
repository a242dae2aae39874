import ClearanceGraph.Time.Calendar

/-!
# Instants — points of universal time

  An instant is a day and a time of day, in universal time. A leap second comes
  after the last fraction of its minute and before the next minute, which is the
  order of the written numbers.
-/

open Std

namespace ClearanceGraph

/-- A point of universal time. -/
structure Instant where
  date : Date
  time : TimeOfDay
deriving DecidableEq, Inhabited

namespace Instant

/-- Instants are ordered by day, then by time of day. -/
instance : Ord Instant := ⟨compareLex (compareOn date) (compareOn time)⟩

instance : TransOrd Instant :=
  inferInstanceAs (TransCmp (compareLex (compareOn date) (compareOn time)))

instance : LawfulEqOrd Instant where
  eq_of_compare {a b} h := by
    change (compare a.date b.date).then (compare a.time b.time) = .eq at h
    rw [Ordering.then_eq_eq] at h
    cases a; cases b
    simp only [mk.injEq]
    exact ⟨Std.compare_eq_iff_eq.1 h.1, Std.compare_eq_iff_eq.1 h.2⟩

/-- One instant is earlier than another. -/
instance : LT Instant := ⟨fun a b => compare a b = .lt⟩

/-- One instant is not later than another. -/
instance : LE Instant := ⟨fun a b => compare a b ≠ .gt⟩

instance (a b : Instant) : Decidable (a < b) :=
  inferInstanceAs (Decidable (compare a b = .lt))

instance (a b : Instant) : Decidable (a ≤ b) :=
  inferInstanceAs (Decidable (compare a b ≠ .gt))

/-- The last instant of the calendar that is no leap second. -/
def latest : Instant := ⟨.last, ⟨23, 59, 59, 999999999, by decide⟩⟩

end Instant

end ClearanceGraph
