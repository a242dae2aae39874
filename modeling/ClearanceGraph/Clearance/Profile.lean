import ClearanceGraph.Clearance.Level

/-!
# Profiles — the effective level of an object and where it comes from

  A level is declared, or inherited from a declared object some hops away, or
  the default of an object that has neither.
-/

namespace ClearanceGraph

/-- The way an inherited level arrived. -/
structure Inheritance where
  parent : Reference
  source : Reference
  level : Level
  /-- The number of hops from the source. -/
  depth : Nat
deriving DecidableEq

/-- The effective level of an object. -/
inductive Profile where
  | empty (reference : Reference) (level : Level)
  | declared (reference : Reference) (level : Level)
  /-- Inherited from other objects. -/
  | inherited (reference : Reference) (level : Level) (inheritances : List Inheritance)
deriving DecidableEq

namespace Profile

def reference : Profile → Reference
  | empty r _ => r
  | declared r _ => r
  | inherited r _ _ => r

def level : Profile → Level
  | empty _ l => l
  | declared _ l => l
  | inherited _ l _ => l

/-- Whether the level is declared for the object itself. -/
def isDeclared : Profile → Bool
  | declared _ _ => true
  | _ => false

end Profile

/-! ## Changes of a level -/

/-- What happened to the level of an object. -/
inductive DeltaKind where
  /-- The object has a level for the first time. -/
  | created
  /-- The level now comes from a declaration. -/
  | declared
  /-- The level now comes from inheritance, or is the default again. -/
  | inherited
  | retracted
deriving DecidableEq

namespace DeltaKind

/-- The name of the kind. -/
def name : DeltaKind → String
  | created => "created"
  | declared => "declared"
  | inherited => "inherited"
  | retracted => "retracted"

/-- The kinds with their names. -/
def names : List (String × DeltaKind) :=
  [created, declared, inherited, retracted].map fun k =>
  (k.name, k)

/-- A new object starts new work, every other change repeats work. -/
def isIncrement (k : DeltaKind) : Bool := k == created

end DeltaKind

/-- A change of the level of one object. -/
structure Delta where
  reference : Reference
  /-- Its level before, if it had one. -/
  oldLevel : Option Level
  newLevel : Level
  kind : DeltaKind
deriving DecidableEq

end ClearanceGraph
