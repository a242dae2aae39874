import ClearanceGraph.Error.Validation

/-!
# Naming — references, edges and objects with checked names

  Building a reference from parts and reading a written one accept the same
  types. Building asks for a part of the key, reading for a key that is not
  empty, so what is built of a single empty part cannot be read.
-/

namespace ClearanceGraph

namespace Reference

/-- The reference of a type and the parts of a natural key. -/
def ofParts (objectType : String) (parts : List String) :
    Except ValidationError Reference :=
  if !isTypeName objectType.toList then .error (.invalidObjectType objectType)
  else if parts.isEmpty then .error (.invalidReference objectType .noParts)
  else .ok ⟨objectType ++ String.join (parts.map ("|" ++ ·))⟩

/-- Reads a written reference: a type, a bar, and a key that is not empty. -/
def parse (text : String) : Except ValidationError Reference :=
  match splitBar text.toList with
  | (_, none) => .error (.invalidReference text .missingKey)
  | (t, some k) =>
    if !isTypeName t then .error (.invalidObjectType (String.ofList t))
    else if k.isEmpty then .error (.invalidReference text .emptyKey)
    else .ok ⟨text⟩

end Reference

/-- The edge of a relation between two objects. -/
def EdgeKey.ofRelation (source : Reference) (relation : String) (target : Reference) :
    Except ValidationError EdgeKey :=
  if isRelationName relation.toList then .ok ⟨source, relation, target⟩
  else .error (.invalidRelation relation)

/-- The object of a type and the parts of its natural key, without attributes. -/
def Object.ofParts (objectType : String) (parts : List String) :
    Except ValidationError Object := do
  return ⟨← Reference.ofParts objectType parts, objectType, Table.empty⟩

/-- The object with one more attribute, or another value of it. -/
def Object.withAttribute (o : Object) (name : String) (value : AttributeValue) : Object :=
  { o with attributes := o.attributes.insert name value }

end ClearanceGraph
