import ClearanceGraph.Clearance.Front
import ClearanceGraph.Clearance.Survey

/-!
# Spreading levels — from declared objects over bounded numbers of hops

  Levels start at declared objects and go round by round, one hop a round. A
  declared object takes no level from others. An arrival that a kept one
  dominates goes no further.
-/

namespace ClearanceGraph.Spread

/-- How far and how low levels go. -/
structure Bounds where
  /-- The largest number of hops; the first hop is always taken. -/
  maxDepth : Nat
  /-- Levels that are not above this one do not arrive. -/
  default : Level

/-- The objects at which levels may arrive; none means all. -/
abbrev Area := Option (KeySet Reference)

/-- Whether levels may arrive at an object. -/
def Area.allows (a : Area) (r : Reference) : Bool := a.all (·.contains r)

/-- The arrivals that a level causes by the steps from an object. -/
def arrivals (b : Bounds) (area : Area) (parent source : Reference) (level : Level)
    (depth : Nat) (hops : List Hop) : List (Reference × Arrival) :=
  hops.filterMap fun h =>
    let l := h.carry level
    if b.default < l ∧ area.allows h.node = true then
      some (h.node, ⟨l, depth, parent, source⟩)
    else none

/-- The arrivals after one hop from declared objects. -/
def launch (c : SpreadConfig) (b : Bounds) (area : Area) :
    List (Reference × Level) → Survey (List (Reference × Arrival))
  | [] => return []
  | (r, l) :: rest => do
    let hs ← Survey.taking c r
    return arrivals b area r r l 1 hs ++ (← launch c b area rest)

/-- Offers the arrivals of a round in their order. Gives the fronts and, if there is
another round, its arrivals. -/
def round (c : SpreadConfig) (b : Bounds) (area : Area) (goesOn : Bool) :
    List (Reference × Arrival) → Fronts → List (Reference × Arrival) →
      Survey (Fronts × List (Reference × Arrival))
  | [], f, next => return (f, next)
  | (r, a) :: rest, f, next => do
    match ← Survey.declaredLevel r with
    | some _ => round c b area goesOn rest f next
    | none =>
      match f.offer r a with
      | (false, f) => round c b area goesOn rest f next
      | (true, f) =>
        if goesOn then do
          let hs ← Survey.taking c r
          round c b area goesOn rest f
            (next ++ arrivals b area r a.source a.level (a.depth + 1) hs)
        else round c b area goesOn rest f next

/-- Makes rounds until no level arrives any more, at most so many after the first. -/
def rounds (c : SpreadConfig) (b : Bounds) (area : Area) :
    Nat → List (Reference × Arrival) → Fronts → Survey Fronts
  | 0, as, f => do return (← round c b area false as f []).1
  | more + 1, as, f => do
    let (f, next) ← round c b area true as f []
    if next.isEmpty then return f else rounds c b area more next f

/-- Spreads levels from declared objects. -/
def relax (c : SpreadConfig) (b : Bounds) (area : Area)
    (sources : List (Reference × Level)) :
    Survey Fronts := do
  rounds c b area (b.maxDepth - 1) (← launch c b area sources) Table.empty

end ClearanceGraph.Spread
