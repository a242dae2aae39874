import ClearanceGraph.Store.Reading

/-!
# The outbox — batches in the store until they are told

  A batch is written in the same commit as the profiles it tells of. Once all of
  it was sent, its entry is deleted. Any version of an entry shows that the
  levels have followed its commit, unless it says otherwise.
-/

namespace ClearanceGraph.Outbox

/-- The step that notes a batch, if there is one: an entry if there is something to
tell; else, when the levels have followed everywhere, the trace of an entry. -/
def note (t : Instant) (b : Batch) (propagated : Bool) : Option Operation :=
  if !b.isEmpty then some (.put (.outbox ⟨b, t, propagated⟩))
  else if propagated then some (.delete (.outbox b.transaction))
  else none

/-- How far the levels have followed a commit. -/
inductive FlushState where
  | unrecorded
  /-- They stopped between two instants; this was noted. -/
  | stopped (b : Batch)
  /-- They have followed everywhere. -/
  | recorded
deriving DecidableEq

/-- How far the levels have followed a commit, by the newest version of its entry. -/
def stateOf : Option Dated → FlushState
  | none => .unrecorded
  | some v =>
    match v.document with
    | some (.outbox e) => if e.propagated then .recorded else .stopped e.batch
    | _ => .recorded

/-- How far the levels have followed a commit. -/
def flushState (t : TransactionId) : Reading FlushState := do
  return stateOf (newest? (← Reading.history (.outbox t)))

/-- The entry of a commit that waits, whatever instant it was written for. -/
def entry (t : TransactionId) : Reading (Option OutboxEntry) := do
  return (← Reading.get Instant.latest (.outbox t)).bind Document.outbox?

/-- The entries that wait, by ascending commit. -/
def entries : Reading (List OutboxEntry) := do
  return (← Reading.query Instant.latest .outbox).filterMap Document.outbox?

end ClearanceGraph.Outbox
