import ClearanceGraph.Clearance.Pass
import ClearanceGraph.Engine.Barrier
import ClearanceGraph.Event.Publisher
import ClearanceGraph.Origin.Reconcile

/-!
# The engine — from a run to messages

  A commit is followed by its levels and its messages. Both can stop half-way;
  what was reached is in the store, so the same engine or another one can take up
  the work. The engine itself remembers only what is pending, and up to which
  commit nothing is left to take up.
-/

namespace ClearanceGraph

/-- What an engine remembers. -/
structure Engine where
  config : Config
  barrier : Barrier
  /-- The first commit that may be unfinished. -/
  watermark : Nat

/-- An engine in its world. -/
structure System where
  engine : Engine
  world : World

abbrev Work (α : Type) : Type := ExceptT GraphError (StateM System) α

/-- How the work after a commit ended. -/
inductive Flush where
  | flushed
  | pending
  /-- The levels have not followed everywhere. -/
  | failed
deriving DecidableEq

namespace Engine

/-- Starts an engine; its configuration has to be sound. -/
def start (c : Config) : Except GraphError Engine :=
  match c.validate with
  | .ok _ => .ok ⟨c, .empty, 1⟩
  | .error e => .error (.config e)

end Engine

namespace Work

def act {α : Type} (a : Act α) : Work α := fun s =>
  let (r, w) := a s.world
  (r, { s with world := w })

def config : Work Config := return (← get).engine.config

def modifyBarrier (f : Barrier → Barrier) : StateM System Unit :=
  modify fun s => { s with engine := { s.engine with barrier := f s.engine.barrier } }

end Work

/-- The work after a commit: the batch as it is known at the commit. -/
def Outcome.job? (r : Outcome) : Option Batch :=
  r.transaction.map fun t => ⟨t, some r.origin, r.changes, []⟩

namespace Engine

/-- Follows a commit with levels and messages, from where an earlier attempt stopped. -/
def advance (job : Batch) : Work Unit := do
  let c ← Work.config
  let t := job.transaction
  let carryOn (seed : Batch) : Work Unit := do
    let report ← Work.act (Pass.follow c.levels c.spread seed true)
    Work.act (Publisher.publish c.publisher { seed with deltas := report.deltas })
  match ← Work.act (World.read (Outbox.flushState t)) with
  | .unrecorded => carryOn job
  | .stopped b => carryOn b
  | .recorded =>
    match ← Work.act (World.read (Outbox.entry t)) with
    | none => return ()
    | some e => Work.act (Publisher.publish c.publisher e.batch)

/-- Does the work after a commit. The commit stays pending unless all of it succeeds. -/
def flush (job : Batch) : StateM System Flush := do
  match ← (advance job).run with
  | .ok _ =>
    Work.modifyBarrier (·.complete job.transaction)
    return .flushed
  | .error (.publishFailure _ _ _) => return .pending
  | .error _ => return .failed

/-- Runs a reconciliation under a ticket, and the work after its commit. -/
def commitThrough (a : Act Outcome) : Work (Outcome × Option Flush) := fun s =>
  let attempt : StateM System (Except GraphError (Outcome × Option Flush)) := do
    Work.modifyBarrier Barrier.begin
    match ← (Work.act a).run with
    | .error e =>
      Work.modifyBarrier Barrier.drop
      return .error e
    | .ok r =>
      match r.job? with
      | none =>
        Work.modifyBarrier Barrier.drop
        return .ok (r, none)
      | some job =>
        Work.modifyBarrier (·.commit job.transaction)
        return .ok (r, some (← flush job))
  attempt s

/-- Takes in a run of an origin. -/
def ingest (r : Run) : Work (Outcome × Option Flush) := do
  let c ← Work.config
  commitThrough (Reconcile.reconcile c.levels c.reconcile r)

/-- Takes in the text of a run. -/
def ingestText (text : String) : Work (Outcome × Option Flush) := do
  match Run.ofText text with
  | .error e => throw (.validation e)
  | .ok r => ingest r

def retireOrigin (o : OriginId) (t : Instant) : Work (Outcome × Option Flush) := do
  let c ← Work.config
  commitThrough (Reconcile.retire c.reconcile o t)

/-- The commits that are pending. -/
def unflushed : StateM System (List TransactionId) :=
  return (← get).engine.barrier.pending.toList

/-- The commits whose messages wait. -/
def unpublished : Work (List TransactionId) := Work.act (World.read Publisher.pending)

/-- Whether everything up to a commit is committed and out. -/
def awaitFlush (bound : TransactionId) : StateM System Bool := fun s =>
  let (b, w) := s.engine.barrier.awaitFlush bound s.world
  (b, { s with world := w })

/-! ## Reads -/

/-- An object at an instant. -/
def objectAt (r : Reference) (t : Instant) : Work (Option Object) := do
  return (← Work.act (World.read (Reading.get t (.fact (.object r))))).bind Document.object?

/-- The profile of an object at an instant; none if the object is not there then. -/
def profileAt (r : Reference) (t : Instant) : Work (Option Profile) := do
  let c ← Work.config
  match ← objectAt r t with
  | none => return none
  | some _ =>
    let stored ← Work.act (World.read (Reading.get t (.profile r)))
    return some ((stored.bind Document.profile?).getD (.empty r c.levels.default))

def object (r : Reference) : Work (Option Object) := do objectAt r (← Work.act World.now)

/-- The profile of an object now. -/
def profile (r : Reference) : Work (Option Profile) := do profileAt r (← Work.act World.now)

/-- The level of an object now; the default level if there is no such object. -/
def level (r : Reference) : Work Level := do
  let c ← Work.config
  return (← profile r).elim c.levels.default Profile.level

end Engine

end ClearanceGraph
