import ClearanceGraph.Event.Json
import ClearanceGraph.Graph.Naming
import ClearanceGraph.Json.Parser
import ClearanceGraph.Store.Json

/-!
# Runs — complete lists of what an origin asserts

  A run is checked before it is reconciled. In a checked run every element is
  about a fact of its own.
-/

namespace ClearanceGraph

/-- A run of an origin. -/
structure Run where
  origin : OriginId
  method : Method
  /-- Since when the facts hold. -/
  validTime : Instant
  objects : List Object
  edges : List Edge
  declarations : List DeclaredLevel

namespace Run

/-! ## Checks -/

/-- Notes a fact as seen; a fact that was seen before is a duplicate. -/
def note (seen : KeySet Fact) (f : Fact) : Except ValidationError (KeySet Fact) :=
  if seen.contains f then .error (.duplicateFact f) else .ok (seen.add f)

/-- Checks an object: its type is that of its reference, and it is new. -/
def checkObject (seen : KeySet Fact) (o : Object) : Except ValidationError (KeySet Fact) :=
  if o.reference.objectType ≠ o.objectType then
    .error (.invalidReference o.reference.text (.otherType o.objectType))
  else note seen (.object o.reference)

/-- Checks a declared level: it is on the scale, and it is new. -/
def checkDeclaration (highest : Level) (seen : KeySet Fact) (d : DeclaredLevel) :
    Except ValidationError (KeySet Fact) := do
  let _ ← d.level.check highest
  note seen (.declaration d.reference)

/-- Checks a run; the first fault counts. -/
def validate (r : Run) (highest : Level) : Except ValidationError Unit := do
  if r.origin.isEmpty then throw .emptyOriginId
  if r.method = .observation ∧ !r.declarations.isEmpty then
    throw (.declarationFromObservation r.origin)
  let seen ← r.objects.foldlM checkObject Table.empty
  let seen ← r.edges.foldlM (fun s e => note s (.edge e.key)) seen
  let _ ← r.declarations.foldlM (checkDeclaration highest) seen

/-! ## What a run asserts -/

/-- The contents of a run: objects, then edges, then declared levels. -/
def contents (r : Run) : List Content :=
  r.objects.map .object ++ r.edges.map .edge ++ r.declarations.map .declaration

/-- The contents of a run by their facts. -/
def asserted (r : Run) : Table Fact Content := Content.byFact r.contents

/-! ## Reading -/

/-- An object as it is handed in: a type, the parts of its key, attributes. -/
def object? (j : Json) : Option (Except ValidationError Object) := do
  let r ← j.fields ["object_type", "natural_key", "attributes"]
  let t ← r.required "object_type" Json.asString?
  let parts ← r.required "natural_key" (Json.asList? Json.asString?)
  let attributes ← r.defaulted "attributes" Table.empty Attributes.ofJson?
  return (Object.ofParts t parts).map fun o => { o with attributes }

/-- An edge as it is handed in: written references, a relation, attributes. -/
def edge? (j : Json) : Option (Except ValidationError Edge) := do
  let r ← j.fields ["source", "relation", "target", "attributes"]
  let source ← r.required "source" Json.asString?
  let relation ← r.required "relation" Json.asString?
  let target ← r.required "target" Json.asString?
  let attributes ← r.defaulted "attributes" Table.empty Attributes.ofJson?
  return do
    let s ← Reference.parse source
    let t ← Reference.parse target
    return ⟨← EdgeKey.ofRelation s relation t, attributes⟩

/-- A declared level as it is handed in: a written reference and a level. -/
def declaration? (j : Json) : Option (Except ValidationError DeclaredLevel) := do
  let r ← j.fields ["reference", "level"]
  let reference ← r.required "reference" Json.asString?
  let level ← r.required "level" Level.ofJson?
  return (Reference.parse reference).map fun r => ⟨r, level⟩

/-- Reads the parts of a run: none if the form is wrong, else the run or the first wrong
name. -/
def ofJson? (j : Json) : Option (Except ValidationError Run) := do
  let r ← j.fields ["origin", "method", "valid_time", "objects", "edges", "scan_profiles"]
  let origin ← r.required "origin" OriginId.ofJson?
  let method ← r.required "method" (Json.alternative? .inPlace Method.names)
  let validTime ← r.required "valid_time" Instant.ofJson?
  let objects ← r.defaulted "objects" [] (Json.asList? object?)
  let edges ← r.defaulted "edges" [] (Json.asList? edge?)
  let declarations ← r.defaulted "scan_profiles" [] (Json.asList? declaration?)
  return do
    return ⟨origin, method, validTime, ← objects.mapM id, ← edges.mapM id,
      ← declarations.mapM id⟩

/-- Reads the text of a run. -/
def ofText (s : String) : Except ValidationError Run :=
  match (Json.parse? s).bind ofJson? with
  | none => .error .unreadablePayload
  | some r => r

end Run

end ClearanceGraph
