import ClearanceGraph.Digest.Uuid
import ClearanceGraph.Event.Json
import ClearanceGraph.Json.Parser
import ClearanceGraph.Json.Printer

/-!
# Messages — what goes over the wire

  A message carries its commit and an identifier that follows from the commit,
  the subject and the kind of change, so a message that is sent again is the
  same text. A receiver drops repeats by commit and object.
-/

namespace ClearanceGraph

/-- The namespace of the identifiers of messages. -/
def messageSpace : Uuid := ⟨0x5C1A9E0F4B7D4E21A3F62D8C17B0E944, by decide⟩

/-- The name behind the identifier of a message. -/
def messageName (t : TransactionId) (subject kind : String) : String :=
  t.display ++ "|" ++ subject ++ "|" ++ kind

/-- A message about a level. -/
structure ProfileMessage where
  id : Uuid
  transaction : TransactionId
  object : Reference
  /-- Its level before, if it had one. -/
  oldLevel : Option Level
  newLevel : Level
  kind : DeltaKind
deriving DecidableEq

/-- A message about a fact. -/
structure ChangeMessage where
  id : Uuid
  transaction : TransactionId
  origin : OriginId
  fact : Fact
  kind : ChangeKind
deriving DecidableEq

/-- The message of a delta of a commit. -/
def ProfileMessage.ofDelta (t : TransactionId) (d : Delta) : ProfileMessage :=
  ⟨Uuid.ofName messageSpace (messageName t d.reference.text d.kind.name), t,
    d.reference, d.oldLevel, d.newLevel, d.kind⟩

/-- The message of a change that an origin made in a commit. -/
def ChangeMessage.ofChange (t : TransactionId) (o : OriginId) (c : Change) :
    ChangeMessage :=
  ⟨Uuid.ofName messageSpace (messageName t c.fact.display c.kind.name), t, o,
    c.fact, c.kind⟩

/-! ## The written form -/

def Uuid.ofJson? (j : Json) : Option Uuid := j.asString?.bind Uuid.ofText?

namespace ProfileMessage

/-- A message is written as its parts; an object without an earlier level has no field
for it. -/
def toJson (m : ProfileMessage) : Json :=
  .object ([("message_id", .string m.id.toText), ("transaction_id", m.transaction.toJson),
      ("object_id", m.object.toJson)] ++
    (m.oldLevel.toList.map fun l => ("old_level", l.toJson)) ++
    [("new_level", m.newLevel.toJson), ("kind", m.kind.toJson)])

def ofJson? (j : Json) : Option ProfileMessage := do
  let r ← j.fields ["message_id", "transaction_id", "object_id", "old_level",
    "new_level", "kind"]
  return ⟨← r.required "message_id" Uuid.ofJson?,
    ← r.required "transaction_id" TransactionId.ofJson?,
    ← r.required "object_id" Reference.ofJson?,
    ← r.defaulted "old_level" none (Json.asOption? Level.ofJson?),
    ← r.required "new_level" Level.ofJson?, ← r.required "kind" DeltaKind.ofJson?⟩

/-- The text on the wire. -/
def encode (m : ProfileMessage) : String := m.toJson.print

/-- Reads the text on the wire. -/
def decode? (s : String) : Option ProfileMessage := (Json.parse? s).bind ofJson?

/-- What a receiver knows a repeat by. -/
def repeatKey (m : ProfileMessage) : TransactionId × Reference := (m.transaction, m.object)

end ProfileMessage

namespace ChangeMessage

/-- A message is written as its parts. -/
def toJson (m : ChangeMessage) : Json :=
  .object [("message_id", .string m.id.toText), ("transaction_id", m.transaction.toJson),
    ("origin", m.origin.toJson), ("fact", m.fact.toJson), ("kind", m.kind.toJson)]

def ofJson? (j : Json) : Option ChangeMessage := do
  let r ← j.fields ["message_id", "transaction_id", "origin", "fact", "kind"]
  return ⟨← r.required "message_id" Uuid.ofJson?,
    ← r.required "transaction_id" TransactionId.ofJson?,
    ← r.required "origin" OriginId.ofJson?, ← r.required "fact" Fact.ofJson?,
    ← r.required "kind" ChangeKind.ofJson?⟩

/-- The text on the wire. -/
def encode (m : ChangeMessage) : String := m.toJson.print

/-- Reads the text on the wire. -/
def decode? (s : String) : Option ChangeMessage := (Json.parse? s).bind ofJson?

end ChangeMessage

/-! ## Receivers -/

/-- The commits and objects that a receiver has taken. -/
abbrev Deduplicator := List (TransactionId × Reference)

/-- Takes a message the first time its commit and object are seen. -/
def Deduplicator.accept (seen : Deduplicator) (m : ProfileMessage) : Bool × Deduplicator :=
  if seen.contains m.repeatKey then (false, seen) else (true, m.repeatKey :: seen)

end ClearanceGraph
