import ClearanceGraph.Clearance.Closure
import ClearanceGraph.Clearance.Spread
import ClearanceGraph.Store.Basic

/-!
# Regions — the objects whose levels a commit can have changed

  Levels change at the objects that a commit touched and at those that take levels
  from them, at any distance; what these inherit comes from the objects that give
  levels to them. Where this is more than the budget allows, one hop is computed
  from stored profiles.
-/

namespace ClearanceGraph

/-- The objects that a commit touched: of objects and declared levels the object, of
edges both ends. Records, profiles and batches touch nothing. -/
def Committed.touched (tx : Committed) : KeySet Reference :=
  KeySet.ofList <| (tx.operations.filter Operation.isWrite).flatMap fun op =>
    match op.key with
    | .fact (.object r) => [r]
    | .fact (.declaration r) => [r]
    | .fact (.edge k) => [k.source, k.target]
    | _ => []

/-- Levels that objects inherit, with how they came. -/
abbrev Inherited := Table Reference (Level × List Inheritance)

/-- Objects to settle. -/
structure Region where
  targets : KeySet Reference
  inherited : Inherited
  reach : KeySet Reference
  /-- Only one hop was computed. -/
  isPartial : Bool

namespace Region

variable (levels : LevelConfig) (c : SpreadConfig)

/-- How far and how low levels go. -/
def bounds : Spread.Bounds := ⟨c.maxDepth, levels.default⟩

/-- What some objects inherit by fronts. -/
def inheritedBy (f : Fronts) (targets : List Reference) : Inherited :=
  Table.ofList (targets.filterMap fun r => (f.best r).map fun b => (r, b))

/-- The declared levels of the objects of a list. -/
def declaredAmong : List Reference → Survey (List (Reference × Level))
  | [] => return []
  | r :: rs => do
    match ← Survey.declaredLevel r with
    | some l => return (r, l) :: (← declaredAmong rs)
    | none => declaredAmong rs

/-- The region around touched objects with what it inherits; none if it is over the
budget. -/
def full (dirty : KeySet Reference) : Survey (Option Region) := do
  match ← Closure.closure c true dirty with
  | none => return none
  | some targets =>
    match ← Closure.closure c false targets with
    | none => return none
    | some search =>
      let sources ← declaredAmong search.toList
      let f ← Spread.relax c (bounds levels c) (some search) sources
      return some ⟨targets, inheritedBy f targets.toList, search, false⟩

/-! ## One hop -/

/-- The declared object and the number of hops from which a stored profile has its
level. -/
def storedSource? : Profile → Option (Reference × Nat)
  | .empty _ _ => none
  | .declared r _ => some (r, 0)
  | .inherited _ _ is =>
    (firstMin? (fun i j => compare i.depth j.depth) is).map fun i => (i.source, i.depth)

/-- What a neighbour with a stored profile passes on by a step. -/
def candidate? (h : Hop) (p : Profile) : Option Inheritance := do
  let (source, depth) ← storedSource? p
  let level := h.carry p.level
  if levels.default < level ∧ depth < c.maxDepth then
    some ⟨h.node, source, level, depth + 1⟩
  else none

/-- What the neighbours pass on by some steps. -/
def candidates : List Hop → Survey (List Inheritance)
  | [] => return []
  | h :: hs => do
    match ← Survey.storedProfile h.node with
    | none => candidates hs
    | some p => return (candidate? levels c h p).toList ++ (← candidates hs)

/-- The highest of some candidates, with all that reach it. -/
def bestOf (is : List Inheritance) : Option (Level × List Inheritance) :=
  (lastMax? compare (is.map (·.level))).map fun l =>
    (l, sortBy Inheritance.order (is.filter (·.level == l)))

/-- What the objects of a list inherit from their neighbours, and the neighbours. -/
def inheritOnce : List Reference → Inherited → KeySet Reference →
    Survey (Inherited × KeySet Reference)
  | [], inherited, reach => return (inherited, reach)
  | r :: rs, inherited, reach => do
    let hs ← Survey.giving c r
    let reach := KeySet.addAll reach (hs.map (·.node))
    match bestOf (← candidates levels c hs) with
    | none => inheritOnce rs inherited reach
    | some b => inheritOnce rs (inherited.insert r b) reach

/-- The neighbours to which the objects of a list pass their levels. -/
def neighbours : List Reference → Survey (List Reference)
  | [] => return []
  | r :: rs => do
    let hs ← Survey.taking c r
    return hs.map (·.node) ++ (← neighbours rs)

/-- Touched objects and those one hop after them, with what they inherit from their
neighbours. -/
def oneHop (dirty : KeySet Reference) : Survey Region := do
  let targets := KeySet.addAll dirty (← neighbours c dirty.toList)
  let (inherited, reach) ← inheritOnce levels c targets.toList Table.empty targets
  return ⟨targets, inherited, reach, true⟩

/-- The region around touched objects, within the budget. -/
def around (dirty : KeySet Reference) : Survey Region := do
  match ← full levels c dirty with
  | some r => return r
  | none => oneHop levels c dirty

end Region

end ClearanceGraph
