import ClearanceGraph.Clearance.Json
import ClearanceGraph.Event.Batch
import ClearanceGraph.Time.Text

/-!
# The written form of changes, batches and outbox entries
-/

namespace ClearanceGraph

/-- An instant is written as its text. -/
def Instant.toJson (t : Instant) : Json := .string t.toText

def Instant.ofJson? (j : Json) : Option Instant := j.asString?.bind Instant.ofText?

/-- An origin is written as its name. -/
def OriginId.toJson (o : OriginId) : Json := .string o.text

/-- Reads the name of an origin. -/
def OriginId.ofJson? (j : Json) : Option OriginId := j.asString?.map .mk

/-- A commit is written as its number. -/
def TransactionId.toJson (t : TransactionId) : Json := .int t.value

/-- Reads the number of a commit. -/
def TransactionId.ofJson? (j : Json) : Option TransactionId :=
  (j.asNat? (UInt64.size - 1)).map .mk

/-- A kind of change is written as its name. -/
def ChangeKind.toJson (k : ChangeKind) : Json := .string k.name

/-- Reads a kind of change from either source. -/
def ChangeKind.read? (s : Json.Source) (j : Json) : Option ChangeKind :=
  j.alternative? s ChangeKind.names

/-- Reads a kind of change. -/
def ChangeKind.ofJson? (j : Json) : Option ChangeKind := ChangeKind.read? .inPlace j

/-- A change is written as its fact and its kind. -/
def Change.toJson (c : Change) : Json :=
  .object [("fact", c.fact.toJson), ("kind", c.kind.toJson)]

/-- Reads a change from either source. -/
def Change.read? (s : Json.Source) (j : Json) : Option Change := do
  let r ← j.fields ["fact", "kind"]
  return ⟨← r.required "fact" (Fact.read? s), ← r.required "kind" (ChangeKind.read? s)⟩

def Change.ofJson? (j : Json) : Option Change := Change.read? .inPlace j

/-- A batch is written as its four parts. -/
def Batch.toJson (b : Batch) : Json :=
  .object [("transaction_id", b.transaction.toJson),
    ("origin", Json.ofOption OriginId.toJson b.origin),
    ("graph_changes", .array (b.changes.map Change.toJson)),
    ("profile_deltas", .array (b.deltas.map Delta.toJson))]

/-- Reads a batch from either source. -/
def Batch.read? (s : Json.Source) (j : Json) : Option Batch := do
  let r ← j.fields ["transaction_id", "origin", "graph_changes", "profile_deltas"]
  return ⟨← r.required "transaction_id" TransactionId.ofJson?,
    ← r.nullable "origin" OriginId.ofJson?,
    ← r.required "graph_changes" (Json.asList? (Change.read? s)),
    ← r.required "profile_deltas" (Json.asList? (Delta.read? s))⟩

def Batch.ofJson? (j : Json) : Option Batch := Batch.read? .inPlace j

/-- An outbox entry is written as its three parts. -/
def OutboxEntry.toJson (e : OutboxEntry) : Json :=
  .object [("batch", e.batch.toJson), ("valid_time", e.validTime.toJson),
    ("propagated", .bool e.propagated)]

/-- Reads an outbox entry from either source. -/
def OutboxEntry.read? (s : Json.Source) (j : Json) : Option OutboxEntry := do
  let r ← j.fields ["batch", "valid_time", "propagated"]
  return ⟨← r.required "batch" (Batch.read? s), ← r.required "valid_time" Instant.ofJson?,
    ← r.required "propagated" Json.asBool?⟩

end ClearanceGraph
