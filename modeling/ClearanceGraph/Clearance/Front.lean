import ClearanceGraph.Clearance.Profile
import ClearanceGraph.Order.Choice
import ClearanceGraph.Order.Table

/-!
# Fronts — the arrivals worth keeping at each object

  Of the ways in which a level reached an object those are kept that no other
  way beats: none came in as few hops with a level as high.
-/

open Std

namespace ClearanceGraph

namespace Inheritance

/-- Inheritances are ordered by parent, source, level and depth. -/
def order (a b : Inheritance) : Ordering :=
  (compare a.parent b.parent).then <| (compare a.source b.source).then <|
    (compare a.level b.level).then (compare a.depth b.depth)

end Inheritance

/-- A way in which a level reached an object. -/
structure Arrival where
  level : Level
  depth : Nat
  parent : Reference
  source : Reference
deriving DecidableEq

namespace Arrival

/-- Whether another arrival came in as few hops with a level as high. -/
def dominatedBy (a b : Arrival) : Bool :=
  decide (b.depth ≤ a.depth) && decide (a.level ≤ b.level)

/-- The arrival as a part of a profile. -/
def toInheritance (a : Arrival) : Inheritance := ⟨a.parent, a.source, a.level, a.depth⟩

end Arrival

/-- The arrivals kept at each object, in the order in which they came. -/
abbrev Fronts := Table Reference (List Arrival)

namespace Fronts

/-- The arrivals kept at an object. -/
def front (f : Fronts) (r : Reference) : List Arrival := (f.get? r).getD []

/-- Offers an arrival. If a kept one dominates it nothing changes; else it is kept, and
what it dominates goes. -/
def offer (f : Fronts) (r : Reference) (a : Arrival) : Bool × Fronts :=
  if (f.front r).any a.dominatedBy then (false, f)
  else (true, f.insert r ((f.front r).filter (fun b => !b.dominatedBy a) ++ [a]))

/-- The highest level kept at an object. -/
def highest? (as : List Arrival) : Option Level := lastMax? compare (as.map (·.level))

/-- The highest level kept at an object, and how it came. -/
def best (f : Fronts) (r : Reference) : Option (Level × List Inheritance) :=
  (highest? (f.front r)).map fun l =>
    (l, sortBy Inheritance.order
      (((f.front r).filter (·.level == l)).map Arrival.toInheritance))

end Fronts

end ClearanceGraph
