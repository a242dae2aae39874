import ClearanceGraph.Clearance.Profile
import ClearanceGraph.Store.Key

/-!
# Batches — what a commit has to tell

  A batch holds the changes of facts that a commit made and the changes of
  levels that followed. Until it is told, it waits in the outbox.
-/

namespace ClearanceGraph

/-- What happened to a fact. -/
inductive ChangeKind where
  | created
  | updated
  | retracted
deriving DecidableEq

namespace ChangeKind

/-- The name of the kind. -/
def name : ChangeKind → String
  | created => "created"
  | updated => "updated"
  | retracted => "retracted"

/-- The kinds with their names. -/
def names : List (String × ChangeKind) :=
  [created, updated, retracted].map fun k => (k.name, k)

end ChangeKind

/-- A change of one fact. -/
structure Change where
  fact : Fact
  kind : ChangeKind
deriving DecidableEq

/-- What a commit has to tell. -/
structure Batch where
  transaction : TransactionId
  /-- The origin that made it, if one did. -/
  origin : Option OriginId
  changes : List Change
  deltas : List Delta
deriving DecidableEq, Inhabited

/-- Whether there is nothing to tell. -/
def Batch.isEmpty (b : Batch) : Bool := b.changes.isEmpty && b.deltas.isEmpty

/-- A batch that waits to be told. -/
structure OutboxEntry where
  batch : Batch
  /-- Since when the changes hold. -/
  validTime : Instant
  /-- Whether the levels have followed the facts everywhere. -/
  propagated : Bool
deriving DecidableEq

end ClearanceGraph
