import ClearanceGraph.Clearance.Survey
import ClearanceGraph.Order.Table

/-!
# Closures — the objects within a number of hops

  The search goes level by level and gives up when it has met more objects than
  its budget allows.
-/

namespace ClearanceGraph.Closure

/-- The objects met so far, and the new ones of this level. -/
abbrev State := KeySet Reference × List Reference

/-- Meets the objects of a list; none if that makes more than the budget. -/
def meet (budget : Nat) : List Hop → State → Option State
  | [], s => some s
  | h :: hs, (seen, next) =>
    if seen.contains h.node then meet budget hs (seen, next)
    else
      let seen := KeySet.add seen h.node
      if budget < seen.size then none else meet budget hs (seen, next ++ [h.node])

/-- Takes one hop from every object of a level. -/
def level (c : SpreadConfig) (outgoing : Bool) (budget : Nat) :
    List Reference → State → Survey (Option State)
  | [], s => return some s
  | r :: rs, s => do
    match meet budget (← Survey.hops c outgoing r) s with
    | none => return none
    | some s => level c outgoing budget rs s

/-- Goes on for at most so many levels. -/
def levels (c : SpreadConfig) (outgoing : Bool) (budget : Nat) :
    Nat → List Reference → KeySet Reference → Survey (Option (KeySet Reference))
  | 0, _, seen => return some seen
  | more + 1, frontier, seen => do
    if frontier.isEmpty then return some seen
    else match ← level c outgoing budget frontier (seen, []) with
      | none => return none
      | some (seen, next) => levels c outgoing budget more next seen

/-- The objects within the largest number of hops of some objects, those included, along
the flow of levels or against it; none if there are more than the budget allows. -/
def closure (c : SpreadConfig) (outgoing : Bool) (start : KeySet Reference) :
    Survey (Option (KeySet Reference)) := do
  match ← levels c outgoing c.nodeBudget c.maxDepth start.toList start with
  | none => return none
  | some seen => return if c.nodeBudget < seen.size then none else some seen

end ClearanceGraph.Closure
