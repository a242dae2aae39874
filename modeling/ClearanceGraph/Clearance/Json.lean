import ClearanceGraph.Clearance.Profile
import ClearanceGraph.Graph.Json

/-!
# The written form of profiles and deltas

  A profile carries its kind among its fields. A delta of an object without an
  earlier level has a null there.
-/

namespace ClearanceGraph

/-- The largest count of hops. -/
def depthBound : Nat := UInt32.size - 1

/-- An inheritance is written as its four parts. -/
def Inheritance.toJson (i : Inheritance) : Json :=
  .object [("parent", i.parent.toJson), ("source", i.source.toJson),
    ("level", i.level.toJson), ("depth", .int i.depth)]

def Inheritance.ofJson? (j : Json) : Option Inheritance := do
  let r ← j.fields ["parent", "source", "level", "depth"]
  return ⟨← r.required "parent" Reference.ofJson?, ← r.required "source" Reference.ofJson?,
    ← r.required "level" Level.ofJson?, ← r.required "depth" (Json.asNat? depthBound)⟩

namespace Profile

/-- A profile is written as its kind and its parts. -/
def toJson : Profile → Json
  | empty r l => .object [("scan_profile_type", .string "empty"), ("reference", r.toJson),
      ("level", l.toJson)]
  | declared r l =>
      .object [("scan_profile_type", .string "declared"), ("reference", r.toJson),
      ("level", l.toJson)]
  | inherited r l is => .object [("scan_profile_type", .string "inherited"),
      ("reference", r.toJson), ("level", l.toJson),
      ("inheritances", .array (is.map Inheritance.toJson))]

/-- Reads the object and the level of a profile of one of two kinds. -/
def plain? (make : Reference → Level → Profile) (j : Json) : Option Profile := do
  let r ← j.fields ["reference", "level"]
  return make (← r.required "reference" Reference.ofJson?)
    (← r.required "level" Level.ofJson?)

/-- Reads the parts of an inherited profile. -/
def inherited? (j : Json) : Option Profile := do
  let r ← j.fields ["reference", "level", "inheritances"]
  return .inherited (← r.required "reference" Reference.ofJson?)
    (← r.required "level" Level.ofJson?)
    (← r.required "inheritances" (Json.asList? Inheritance.ofJson?))

/-- Reads a profile from either source. -/
def read? (s : Json.Source) (j : Json) : Option Profile :=
  j.variant? s "scan_profile_type"
    [("empty", plain? empty), ("declared", plain? declared), ("inherited", inherited?)]

def ofJson? (j : Json) : Option Profile := read? .inPlace j

end Profile

/-- A kind of delta is written as its name. -/
def DeltaKind.toJson (k : DeltaKind) : Json := .string k.name

/-- Reads a kind of delta from either source. -/
def DeltaKind.read? (s : Json.Source) (j : Json) : Option DeltaKind :=
  j.alternative? s DeltaKind.names

/-- Reads a kind of delta. -/
def DeltaKind.ofJson? (j : Json) : Option DeltaKind := DeltaKind.read? .inPlace j

/-- A delta is written as its four parts. -/
def Delta.toJson (d : Delta) : Json :=
  .object [("reference", d.reference.toJson),
    ("old_level", Json.ofOption Level.toJson d.oldLevel),
    ("new_level", d.newLevel.toJson), ("kind", d.kind.toJson)]

/-- Reads a delta from either source. -/
def Delta.read? (s : Json.Source) (j : Json) : Option Delta := do
  let r ← j.fields ["reference", "old_level", "new_level", "kind"]
  return ⟨← r.required "reference" Reference.ofJson?,
    ← r.nullable "old_level" Level.ofJson?,
    ← r.required "new_level" Level.ofJson?, ← r.required "kind" (DeltaKind.read? s)⟩

def Delta.ofJson? (j : Json) : Option Delta := Delta.read? .inPlace j

end ClearanceGraph
