import ClearanceGraph.Event.Json
import ClearanceGraph.Store.Document

/-!
# The written form of documents and transactions

  The record of an origin lists the contents it asserts without their facts,
  which are found again from the contents; of two contents of one fact the last
  stays.
-/

namespace ClearanceGraph

open Json (asList? asOption?)

/-! ## Keys -/

/-- A key is written as its kind and what it is about. -/
def DocumentKey.toJson : DocumentKey → Json
  | fact (.object r) => .object [("type", .string "object"), ("id", r.toJson)]
  | fact (.edge k) => .object [("type", .string "edge"), ("id", k.toJson)]
  | fact (.declaration r) => .object [("type", .string "declaration"), ("id", r.toJson)]
  | origin o => .object [("type", .string "origin"), ("id", o.toJson)]
  | profile r => .object [("type", .string "profile"), ("id", r.toJson)]
  | outbox t => .object [("type", .string "outbox"), ("id", t.toJson)]

/-- Reads a key from either source. -/
def DocumentKey.read? (s : Json.Source) (j : Json) : Option DocumentKey :=
  j.tagged? s "type" "id"
    [("object", fun _ i => (Reference.ofJson? i).map fun r => .fact (.object r)),
     ("edge", fun _ i => (EdgeKey.ofJson? i).map fun k => .fact (.edge k)),
     ("origin", fun _ i => (OriginId.ofJson? i).map .origin),
     ("declaration", fun _ i => (Reference.ofJson? i).map fun r => .fact (.declaration r)),
     ("profile", fun _ i => (Reference.ofJson? i).map .profile),
     ("outbox", fun _ i => (TransactionId.ofJson? i).map .outbox)]

def DocumentKey.ofJson? (j : Json) : Option DocumentKey := DocumentKey.read? .inPlace j

/-! ## Documents -/

/-- A document is written as its kind and its parts. -/
def documentJson (kind : String) (j : Json) : Json :=
  .object [("type", .string kind), ("document", j)]

/-- The content of a fact is written as a document. -/
def Content.toJson : Content → Json
  | object o => documentJson "object" o.toJson
  | edge e => documentJson "edge" e.toJson
  | declaration d => documentJson "declaration" d.toJson

/-- Reads the content of a fact from either source. Documents of the other kinds, which
share its form, are none. -/
def Content.read? (s : Json.Source) (j : Json) : Option Content :=
  j.tagged? s "type" "document"
    [("object", fun _ i => (Object.ofJson? i).map .object),
     ("edge", fun _ i => (Edge.ofJson? i).map .edge),
     ("origin", fun _ _ => none),
     ("declaration", fun _ i => (DeclaredLevel.ofJson? i).map .declaration),
     ("profile", fun _ _ => none),
     ("outbox", fun _ _ => none)]

/-- The record of an origin is written with its contents in the order of their facts. -/
def OriginRecord.toJson (r : OriginRecord) : Json :=
  .object [("id", r.id.toJson), ("method", .string r.method.name),
    ("valid_time", r.validTime.toJson),
    ("result", .array (r.result.values.map Content.toJson)), ("runs", .int r.runs)]

/-- Contents by their facts; of one fact the last stays. -/
def Content.byFact (cs : List Content) : Table Fact Content :=
  Table.ofList (cs.map fun c => (c.fact, c))

/-- Reads the record of an origin from either source. -/
def OriginRecord.read? (s : Json.Source) (j : Json) : Option OriginRecord := do
  let r ← j.fields ["id", "method", "valid_time", "result", "runs"]
  return ⟨← r.required "id" OriginId.ofJson?,
    ← r.required "method" (Json.alternative? s Method.names),
    ← r.required "valid_time" Instant.ofJson?,
    Content.byFact (← r.required "result" (asList? (Content.read? s))),
    ← r.required "runs" (Json.asNat? (UInt64.size - 1))⟩

/-- A document is written as its kind and its parts. -/
def Document.toJson : Document → Json
  | content c => c.toJson
  | origin r => documentJson "origin" r.toJson
  | profile p => documentJson "profile" p.toJson
  | outbox e => documentJson "outbox" e.toJson

/-- Reads a document from either source. -/
def Document.read? (s : Json.Source) (j : Json) : Option Document :=
  j.tagged? s "type" "document"
    [("object", fun _ i => (Object.ofJson? i).map fun o => .content (.object o)),
     ("edge", fun _ i => (Edge.ofJson? i).map fun e => .content (.edge e)),
     ("origin", fun s i => (OriginRecord.read? s i).map .origin),
     ("declaration", fun _ i => (DeclaredLevel.ofJson? i).map fun d =>
       .content (.declaration d)),
     ("profile", fun s i => (Profile.read? s i).map .profile),
     ("outbox", fun s i => (OutboxEntry.read? s i).map .outbox)]

def Document.ofJson? (j : Json) : Option Document := Document.read? .inPlace j

/-- The parts of a document without its kind. -/
def Document.body : Document → Json
  | content (.object o) => o.toJson
  | content (.edge e) => e.toJson
  | content (.declaration d) => d.toJson
  | origin r => r.toJson
  | profile p => p.toJson
  | outbox e => e.toJson

/-! ## Transactions -/

/-- A step is written as its kind and its parts. -/
def Operation.toJson : Operation → Json
  | put d => .object [("op", .string "put"), ("document", d.toJson)]
  | delete k => .object [("op", .string "delete"), ("key", k.toJson)]
  | expect k d => .object [("op", .string "match"), ("key", k.toJson),
      ("expected", Json.ofOption Document.toJson d)]

/-- Reads the document of a put, set aside for its tag. -/
def Operation.put? (j : Json) : Option Operation := do
  let r ← j.fields ["document"]
  return .put (← r.required "document" (Document.read? .setAside))

/-- Reads the key of a delete, set aside for its tag. -/
def Operation.delete? (j : Json) : Option Operation := do
  let r ← j.fields ["key"]
  return .delete (← r.required "key" (DocumentKey.read? .setAside))

/-- Reads the key and the document of a match, set aside for its tag. -/
def Operation.expect? (j : Json) : Option Operation := do
  let r ← j.fields ["key", "expected"]
  return .expect (← r.required "key" (DocumentKey.read? .setAside))
    (← r.nullable "expected" (Document.read? .setAside))

def Operation.ofJson? (j : Json) : Option Operation :=
  j.variant? .inPlace "op"
    [("put", Operation.put?), ("delete", Operation.delete?), ("match", Operation.expect?)]

/-- A transaction is written as its instant and its steps. -/
def Transaction.toJson (tx : Transaction) : Json :=
  .object [("valid_time", tx.validTime.toJson),
    ("operations", .array (tx.operations.map Operation.toJson))]

def Transaction.ofJson? (j : Json) : Option Transaction := do
  let r ← j.fields ["valid_time", "operations"]
  return ⟨← r.required "valid_time" Instant.ofJson?,
    ← r.required "operations" (asList? Operation.ofJson?)⟩

end ClearanceGraph
