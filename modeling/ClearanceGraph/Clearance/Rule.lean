import ClearanceGraph.Clearance.Level

/-!
# Rules — how relations carry levels

  A relation carries levels from source to target, back, or both ways, takes a
  decay off per hop, and may cap what passes in either way. A relation without a
  rule carries both ways at the default decay.
-/

namespace ClearanceGraph

/-- The ways in which a relation carries levels. -/
inductive Direction where
  /-- From source to target. -/
  | forward
  /-- From target to source. -/
  | backward
  | both
deriving DecidableEq

namespace Direction

/-- The name of the direction. -/
def name : Direction → String
  | forward => "forward"
  | backward => "backward"
  | both => "both"

/-- The directions with their names. -/
def names : List (String × Direction) := [forward, backward, both].map fun d => (d.name, d)

/-- Whether levels pass along an edge when it is walked from source to target, or back. -/
def carries (d : Direction) (alongEdge : Bool) : Bool :=
  match d with
  | forward => alongEdge
  | backward => !alongEdge
  | both => true

end Direction

/-- The rule of a relation, with gaps for defaults. -/
structure Rule where
  relation : String
  /-- Where levels pass. -/
  direction : Direction
  /-- What a hop costs; none means the default decay. -/
  decay : Option Nat
  /-- The highest level that passes from source to target. -/
  maxIssue : Option Level
  /-- The highest level that passes from target to source. -/
  maxInherit : Option Level
deriving DecidableEq

/-- How a relation carries levels. -/
structure Passage where
  /-- Where levels pass. -/
  direction : Direction
  decay : Nat
  /-- The highest level that passes from source to target. -/
  maxIssue : Option Level
  /-- The highest level that passes from target to source. -/
  maxInherit : Option Level
deriving DecidableEq

/-- The cap on a level that walks an edge from source to target, or back. -/
def Passage.cap (p : Passage) (alongEdge : Bool) : Option Level :=
  if alongEdge then p.maxIssue else p.maxInherit

/-- How a relation carries levels under a list of rules; of several rules the first
counts. -/
def passageOf (rules : List Rule) (defaultDecay : Nat) (relation : String) : Passage :=
  match rules.find? fun r => r.relation == relation with
  | some r => ⟨r.direction, r.decay.getD defaultDecay, r.maxIssue, r.maxInherit⟩
  | none => ⟨.both, defaultDecay, none, none⟩

end ClearanceGraph
