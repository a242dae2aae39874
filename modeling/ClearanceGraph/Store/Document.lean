import ClearanceGraph.Event.Batch

/-!
# Documents, operations and transactions

  A document knows the key it is filed under. A transaction is a list of
  operations that hold from one instant on; a match writes nothing and stops the
  whole transaction when it sees another document than it expects.
-/

namespace ClearanceGraph

/-- A stored document. -/
inductive Document where
  | content (c : Content)
  | origin (r : OriginRecord)
  | profile (p : Profile)
  | outbox (e : OutboxEntry)
deriving BEq

namespace Document

/-- The key under which a document is filed. -/
def key : Document → DocumentKey
  | content c => .fact c.fact
  | origin r => .origin r.id
  | profile p => .profile p.reference
  | outbox e => .outbox e.batch.transaction

/-- The fact whose content the document is. -/
def fact? : Document → Option Fact
  | content c => some c.fact
  | _ => none

/-- The content of a fact. -/
def content? : Document → Option Content
  | content c => some c
  | _ => none

def object? : Document → Option Object
  | content (.object o) => some o
  | _ => none

def edge? : Document → Option Edge
  | content (.edge e) => some e
  | _ => none

def declaration? : Document → Option DeclaredLevel
  | content (.declaration d) => some d
  | _ => none

/-- The record of an origin. -/
def origin? : Document → Option OriginRecord
  | origin r => some r
  | _ => none

/-- The profile of an object. -/
def profile? : Document → Option Profile
  | profile p => some p
  | _ => none

def outbox? : Document → Option OutboxEntry
  | outbox e => some e
  | _ => none

end Document

/-- A step of a transaction. -/
inductive Operation where
  | put (d : Document)
  | delete (k : DocumentKey)
  /-- Stops the transaction unless the document of a key is the expected one. -/
  | expect (k : DocumentKey) (d : Option Document)
deriving BEq

namespace Operation

/-- The key that a step is about. -/
def key : Operation → DocumentKey
  | put d => d.key
  | delete k => k
  | expect k _ => k

/-- Whether a step changes the store. -/
def isWrite : Operation → Bool
  | expect _ _ => false
  | _ => true

/-- What a writing step leaves under its key. -/
def written? : Operation → Option (DocumentKey × Option Document)
  | put d => some (d.key, some d)
  | delete k => some (k, none)
  | expect _ _ => none

end Operation

/-- Steps that hold from one instant on. -/
structure Transaction where
  /-- Since when the steps hold. -/
  validTime : Instant
  /-- The steps, in order. -/
  operations : List Operation
deriving BEq

namespace Transaction

def empty (t : Instant) : Transaction := ⟨t, []⟩

/-- The transaction with one more step. -/
def push (tx : Transaction) (op : Operation) : Transaction :=
  { tx with operations := tx.operations ++ [op] }

/-- Whether no step writes. -/
def isEmpty (tx : Transaction) : Bool := !tx.operations.any Operation.isWrite

end Transaction

end ClearanceGraph
