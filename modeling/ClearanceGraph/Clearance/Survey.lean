import ClearanceGraph.Clearance.Profile
import ClearanceGraph.Config.Basic
import ClearanceGraph.Graph.Fact

/-!
# Surveys — questions about a graph at one instant

  A survey is a tree of questions, each with what follows for every answer. It
  says nothing about where answers come from; that is for a view. Hops are the
  steps that a level can take from one existing object to another.
-/

namespace ClearanceGraph

/-- A tree of questions about the graph. -/
inductive Survey (α : Type) where
  /-- No more questions. -/
  | done (a : α)
  | object (r : Reference) (next : Bool → Survey α)
  /-- Which level is declared for an object? -/
  | declaration (r : Reference) (next : Option Level → Survey α)
  /-- Which profile is stored for an object? -/
  | profile (r : Reference) (next : Option Profile → Survey α)
  /-- Which edges have an object as an end? -/
  | edges (r : Reference) (next : List EdgeKey → Survey α)

namespace Survey

variable {α β : Type}

def bind (f : α → Survey β) : Survey α → Survey β
  | done a => f a
  | object r next => object r fun b => bind f (next b)
  | declaration r next => declaration r fun l => bind f (next l)
  | profile r next => profile r fun p => bind f (next p)
  | edges r next => edges r fun ks => bind f (next ks)

instance : Monad Survey where
  pure := done
  bind s f := bind f s

/-- Whether an object exists. -/
def isObject (r : Reference) : Survey Bool := object r done

/-- The level that is declared for an object, if the object exists. -/
def declaredLevel (r : Reference) : Survey (Option Level) :=
  object r fun b => if b then declaration r done else done none

/-- The profile that is stored for an object. -/
def storedProfile (r : Reference) : Survey (Option Profile) := profile r done

/-- The edges that have an object as an end. -/
def edgesAt (r : Reference) : Survey (List EdgeKey) := edges r done

end Survey

/-! ## Hops -/

/-- A step to a neighbour. -/
structure Hop where
  node : Reference
  /-- What the step takes off a level. -/
  decay : Nat
  /-- The highest level that passes. -/
  cap : Option Level
deriving DecidableEq

namespace Hop

/-- The level that arrives after the step. -/
def carry (h : Hop) (l : Level) : Level :=
  match h.cap with
  | none => l.decayed h.decay
  | some c => (l.decayed h.decay).meet c

/-- The step that an edge allows from an object, or towards it. -/
def ofEdge? (c : SpreadConfig) (r : Reference) (outgoing : Bool) (k : EdgeKey) :
    Option Hop :=
  let p := c.passage k.relation
  if k.source = r ∧ p.direction.carries outgoing = true then
    some ⟨k.target, p.decay, p.cap outgoing⟩
  else if k.target = r ∧ p.direction.carries (!outgoing) = true then
    some ⟨k.source, p.decay, p.cap (!outgoing)⟩
  else none

end Hop

namespace Survey

/-- The steps of a list that lead to other objects that exist. -/
def existing (r : Reference) : List Hop → Survey (List Hop)
  | [] => return []
  | h :: hs => do
    if h.node = r then existing r hs
    else if ← isObject h.node then return h :: (← existing r hs)
    else existing r hs

/-- The steps from an object to existing neighbours, or from those to it. -/
def hops (c : SpreadConfig) (outgoing : Bool) (r : Reference) : Survey (List Hop) := do
  existing r ((← edgesAt r).filterMap (Hop.ofEdge? c r outgoing))

/-- The steps to the objects that take levels from an object. -/
def taking (c : SpreadConfig) (r : Reference) : Survey (List Hop) := hops c true r

/-- The steps to the objects that give levels to an object. -/
def giving (c : SpreadConfig) (r : Reference) : Survey (List Hop) := hops c false r

end Survey

end ClearanceGraph
