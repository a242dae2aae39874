import ClearanceGraph.Clearance.Settle
import ClearanceGraph.Clearance.View
import ClearanceGraph.Event.Outbox
import ClearanceGraph.World

/-!
# Passes — bringing stored profiles up to date

  A pass after a commit settles its region at the commit's valid time and at
  every later instant at which something that was looked at changes. A full pass
  settles every object at one instant.
-/

namespace ClearanceGraph

/-- What a pass came to. -/
structure Report where
  /-- The commit that the pass followed; none for a full pass. -/
  transaction : Option TransactionId
  /-- The instant at which the pass started. -/
  validTime : Instant
  /-- The later instants that it went on to. -/
  laterTimes : List Instant
  /-- The changes of levels, one per object, by ascending object. -/
  deltas : List Delta
  /-- The budget allowed only one hop at some instant. -/
  isPartial : Bool
  /-- The last commit that the pass made. -/
  profileTransaction : Option TransactionId

namespace Report

/-- The report of a pass that has not started. -/
def empty (transaction : Option TransactionId) (t : Instant) : Report :=
  ⟨transaction, t, [], [], false, none⟩

/-- The commit that messages about the pass refer to. -/
def eventTransaction (r : Report) : Option TransactionId :=
  r.transaction <|> r.profileTransaction

end Report

namespace Pass

variable (levels : LevelConfig) (c : SpreadConfig)

/-- Commits profiles, trying again while the store is out of reach. Nothing is committed
if there is nothing to write. -/
def write (tx : Transaction) : Act (Option TransactionId) := ExceptT.mk do
  if tx.isEmpty then return .ok none
  let (r, attempts) ← c.retry.run StorageError.isRetryable (fun _ _ => pure ())
    (World.submit tx)
  match r with
  | .ok id => return .ok (some id)
  | .error (.unavailable t) => return .error (.storeUnavailable attempts t)
  | .error e => return .error (.ofStorage e)

/-! ## After a commit -/

/-- What is known when a pass comes to an instant. -/
structure Progress where
  /-- The instants that are still to come. -/
  checkpoints : KeySet Instant
  /-- The objects whose later changes are known. -/
  watched : KeySet Reference
  deltas : Settle.Summary
  report : Report

/-- What was found at an instant. -/
structure Finding where
  /-- The objects that were looked at for the first time. -/
  fresh : KeySet Reference
  /-- The later instants at which something around those changes. -/
  later : KeySet Instant
  operations : List Operation
  deltas : List Delta
  /-- Only one hop was computed. -/
  isPartial : Bool

/-- Computes the region of touched objects at an instant and what has to be written
there. -/
def find (dirty watched : KeySet Reference) (t : Instant) : Reading Finding := do
  let (region, v) ← (Region.around levels c dirty).run (.fresh t)
  let fresh := KeySet.diff region.reach watched
  let later ← if fresh.isEmpty then pure Table.empty
    else Reading.validTimesAfter t fresh.toList
  let ((operations, deltas), _) ←
    (Settle.settleAll levels.default region.inherited region.targets.toList).run v
  return ⟨fresh, later, operations, deltas, region.isPartial⟩

/-- Settles one instant. The batch so far is noted with the profiles if the pass is
recorded. -/
def settleAt (seed : Batch) (recorded : Bool) (start : Instant) (dirty : KeySet Reference)
    (t : Instant) (p : Progress) : Act Progress := do
  let f ← World.read (find levels c dirty p.watched t)
  let checkpoints := KeySet.union p.checkpoints f.later
  let deltas := Settle.fold p.deltas f.deltas
  let note := if recorded then
      Outbox.note t { seed with deltas := deltas.values } checkpoints.isEmpty
    else none
  let written ← write c ⟨t, f.operations ++ note.toList⟩
  return {
    checkpoints
    watched := KeySet.union p.watched f.fresh
    deltas
    report := { p.report with
      laterTimes := p.report.laterTimes ++ (if start < t then [t] else [])
      isPartial := p.report.isPartial || f.isPartial
      profileTransaction := written <|> p.report.profileTransaction } }

/-- Settles instant after instant, the earliest first, at most so many. -/
def settleFrom (seed : Batch) (recorded : Bool) (start : Instant)
    (dirty : KeySet Reference) :
    Nat → Progress → Act Progress
  | 0, p => return p
  | more + 1, p => do
    match KeySet.popMin? p.checkpoints with
    | none => return p
    | some (t, rest) =>
      settleFrom seed recorded start dirty more
        (← settleAt levels c seed recorded start dirty t { p with checkpoints := rest })

/-- A bound on the instants that a pass can come to: the first one, and then only
instants at which a version starts that is there already or comes from a rival. -/
def horizon : Act Nat := do
  let w ← get
  return w.backend.store.versionCount + w.rivals.length + 1

/-- Follows a commit. The seed names it, with the changes of facts and the changes of
levels that an earlier pass has noted. -/
def follow (seed : Batch) (recorded : Bool) : Act Report := do
  match ← World.read (Reading.transaction seed.transaction) with
  | none => throw (.internal (.unknownTransaction seed.transaction))
  | some tx =>
    let t := tx.validTime
    let start : Progress :=
      ⟨KeySet.ofList [t], Table.empty, Settle.fold Table.empty seed.deltas,
        .empty (some seed.transaction) t⟩
    let p ← settleFrom levels c seed recorded t tx.touched (← horizon) start
    return { p.report with deltas := p.deltas.values }

/-- Follows a commit and notes nothing. -/
def followPlain (t : TransactionId) : Act Report :=
  follow levels c { (default : Batch) with transaction := t } false

/-! ## At one instant -/

/-- Computes every profile at an instant and what has to be written there. -/
def findAll (t : Instant) : Reading (List Operation × List Delta) := do
  let v ← View.load t
  let targets := v.knownNodes.toList
  let (f, v) ← (Spread.relax c (Region.bounds levels c) none v.declaredNodes).run v
  let (found, _) ← (Settle.settleAll levels.default (Region.inheritedBy f targets)
    targets).run v
  return found

/-- Settles every object at an instant. -/
def full (t : Instant) : Act Report := do
  let (operations, deltas) ← World.read (findAll levels c t)
  let written ← write c ⟨t, operations⟩
  return { Report.empty none t with deltas, profileTransaction := written }

end Pass

end ClearanceGraph
