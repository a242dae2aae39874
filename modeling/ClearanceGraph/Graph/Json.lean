import ClearanceGraph.Digest.Blake3
import ClearanceGraph.Graph.Content
import ClearanceGraph.Json.Decode
import ClearanceGraph.Json.Printer

/-!
# The written form of facts and contents

  Facts carry their kind beside their identity. Attributes are left out where
  there are none. The digest of an object is that of its name, a zero byte and
  the compact text of its attributes.
-/

namespace ClearanceGraph

/-! ## References, edges, facts -/

/-- A reference is written as a text. -/
def Reference.toJson (r : Reference) : Json := .string r.text

/-- Reads a reference. Any text is one. -/
def Reference.ofJson? (j : Json) : Option Reference := j.asString?.map .mk

/-- An edge is written as its three parts. -/
def EdgeKey.toJson (k : EdgeKey) : Json :=
  .object [("source", k.source.toJson), ("relation", .string k.relation),
    ("target", k.target.toJson)]

/-- Reads the identity of an edge. -/
def EdgeKey.ofJson? (j : Json) : Option EdgeKey := do
  let r ← j.fields ["source", "relation", "target"]
  return ⟨← r.required "source" Reference.ofJson?, ← r.required "relation" Json.asString?,
    ← r.required "target" Reference.ofJson?⟩

/-- A fact is written as its kind and its identity. -/
def Fact.toJson : Fact → Json
  | object r => .object [("kind", .string "object"), ("id", r.toJson)]
  | edge k => .object [("kind", .string "edge"), ("id", k.toJson)]
  | declaration r => .object [("kind", .string "declaration"), ("id", r.toJson)]

/-- Reads a fact from either source. -/
def Fact.read? (s : Json.Source) (j : Json) : Option Fact :=
  j.tagged? s "kind" "id"
    [("object", fun _ i => (Reference.ofJson? i).map .object),
     ("edge", fun _ i => (EdgeKey.ofJson? i).map .edge),
     ("declaration", fun _ i => (Reference.ofJson? i).map .declaration)]

def Fact.ofJson? (j : Json) : Option Fact := Fact.read? .inPlace j

/-! ## Levels -/

/-- A level is written as a number. -/
def Level.toJson (l : Level) : Json := .int l.value

def Level.ofJson? (j : Json) : Option Level := (j.asNat? 255).bind Level.ofNat?

/-- A declared level is written as an object and its level. -/
def DeclaredLevel.toJson (d : DeclaredLevel) : Json :=
  .object [("reference", d.reference.toJson), ("level", d.level.toJson)]

def DeclaredLevel.ofJson? (j : Json) : Option DeclaredLevel := do
  let r ← j.fields ["reference", "level"]
  return ⟨← r.required "reference" Reference.ofJson?, ← r.required "level" Level.ofJson?⟩

/-! ## Objects and edges -/

/-- The field of attributes, left out where there are none. -/
def Attributes.field (a : Attributes) : List (String × Json) :=
  if a.isEmpty then [] else [("attributes", a.toJson)]

/-- An object is written as its name, its type and its attributes. -/
def Object.toJson (o : Object) : Json :=
  .object (("primary_key", o.reference.toJson) :: ("object_type", .string o.objectType) ::
    o.attributes.field)

def Object.ofJson? (j : Json) : Option Object := do
  let r ← j.fields ["primary_key", "object_type", "attributes"]
  return ⟨← r.required "primary_key" Reference.ofJson?,
    ← r.required "object_type" Json.asString?,
    ← r.defaulted "attributes" Table.empty Attributes.ofJson?⟩

/-- An edge is written as its identity and its attributes. -/
def Edge.toJson (e : Edge) : Json := .object (("key", e.key.toJson) :: e.attributes.field)

def Edge.ofJson? (j : Json) : Option Edge := do
  let r ← j.fields ["key", "attributes"]
  return ⟨← r.required "key" EdgeKey.ofJson?, ← r.defaulted "attributes" Table.empty
    Attributes.ofJson?⟩

/-- The digest of an object, in hexadecimal. -/
def Object.contentHash (o : Object) : String :=
  String.ofList (Text.hexBytes (Digest.Blake3.hash
    (o.reference.text.toUTF8.toList ++ 0 :: o.attributes.toJson.print.toUTF8.toList)))

end ClearanceGraph
