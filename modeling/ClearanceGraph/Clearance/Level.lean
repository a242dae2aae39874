import ClearanceGraph.Graph.Reference

/-!
# Levels — clearance on a scale of whole numbers

  A level is a number from 0 to 255. Crossing an edge takes a decay away, down
  to zero, and may cap what is left.
-/

open Std

namespace ClearanceGraph

/-- A clearance level. -/
structure Level where
  value : Nat
  /-- The scale ends at 255. -/
  bounded : value ≤ 255
deriving DecidableEq

namespace Level

def zero : Level := ⟨0, by decide⟩

instance : Inhabited Level := ⟨zero⟩

/-- The level of a number on the scale. -/
def ofNat? (n : Nat) : Option Level := if h : n ≤ 255 then some ⟨n, h⟩ else none

/-- Levels are ordered by height. -/
instance : Ord Level := ⟨compareOn value⟩

instance : TransOrd Level := inferInstanceAs (TransCmp (compareOn value))

instance : LawfulEqOrd Level where
  eq_of_compare {a b} h := by
    change compare a.value b.value = .eq at h
    cases a; cases b
    simpa using h

instance : LT Level := ⟨fun a b => a.value < b.value⟩

instance : LE Level := ⟨fun a b => a.value ≤ b.value⟩

instance (a b : Level) : Decidable (a < b) :=
  inferInstanceAs (Decidable (a.value < b.value))

instance (a b : Level) : Decidable (a ≤ b) :=
  inferInstanceAs (Decidable (a.value ≤ b.value))

/-- The level after a decay, zero at least. -/
def decayed (l : Level) (decay : Nat) : Level :=
  ⟨l.value - decay, Nat.le_trans (Nat.sub_le _ _) l.bounded⟩

/-- The lower of two levels. -/
def meet (a b : Level) : Level := if a ≤ b then a else b

def display (l : Level) : String := "L" ++ toString l.value

end Level

/-- A level declared for an object. -/
structure DeclaredLevel where
  reference : Reference
  level : Level
deriving DecidableEq

end ClearanceGraph
