import ClearanceGraph.Engine.Basic

/-!
# Recovery — taking up what was left

  Commits of reconciliation write the record of an origin. Those whose levels have
  not followed everywhere are found by a walk over the log from a watermark. The
  batch of a commit is rebuilt from the log and the versions before it.
-/

namespace ClearanceGraph

/-- Whether reconciliation made a commit: it writes the record of an origin. -/
def Committed.isGraphTransaction (tx : Committed) : Bool :=
  tx.operations.any fun op => op.isWrite && op.key.isOrigin

namespace Engine

/-- A commit whose levels have not followed everywhere, and how far they are. -/
abbrev Unfinished := Committed × Outbox.FlushState

/-- What a look at the log at one number shows. -/
inductive Inspection where
  | absent
  /-- Nothing is left to do for it. -/
  | settled
  /-- Its levels have not followed everywhere. -/
  | unfinished (u : Unfinished)

/-- Looks at the log at one number. -/
def inspect (t : TransactionId) : Reading Inspection := do
  match ← Reading.transaction t with
  | none => return .absent
  | some tx =>
    if tx.isGraphTransaction then
      match ← Outbox.flushState t with
      | .recorded => return .settled
      | state => return .unfinished (tx, state)
    else return .settled

/-- Walks over the commits from a number on, so many. As long as nothing unfinished was
met, the watermark moves along. -/
def scan : Nat → Nat → Bool → Work (List Unfinished)
  | 0, _, _ => return []
  | more + 1, n, contiguous => do
    match ← Work.act (World.read (inspect ⟨n⟩)) with
    | .absent => scan more (n + 1) contiguous
    | .settled =>
      if contiguous then
        modify fun s => { s with engine := { s.engine with watermark := n + 1 } }
      scan more (n + 1) contiguous
    | .unfinished u => return u :: (← scan more (n + 1) false)

/-- The commits whose levels have not followed everywhere, oldest first. -/
def unfinished : Work (List Unfinished) := do
  match ← Work.act (World.read Reading.latest) with
  | none => return []
  | some latest =>
    let n := (← get).engine.watermark
    scan (latest.value + 1 - n) n true

/-- The commits whose levels have not followed everywhere. -/
def deferred : Work (List TransactionId) := return (← unfinished).map (·.1.id)

/-! ## Rebuilding a batch -/

/-- Whether a document was there at the valid time of a commit, before the commit. -/
def existedBefore (tx : Committed) (vs : List Dated) : Bool :=
  (newest? (vs.filter fun v => decide (v.transaction < tx.id) &&
    decide (v.valid.start ≤ tx.validTime))).any (·.document.isSome)

/-- The change of a fact that a step made, if it made one. -/
def changeOf (tx : Committed) : Operation → Reading (Option Change)
  | .expect _ _ => return none
  | .put (.origin _) => return none
  | .put d => do
    let existed := existedBefore tx (← Reading.history d.key)
    return d.fact?.map fun f => ⟨f, if existed then .updated else .created⟩
  | .delete k => return k.fact?.map fun f => ⟨f, .retracted⟩

/-- The changes of facts that steps made. -/
def changesOf (tx : Committed) : List Operation → Reading (List Change)
  | [] => return []
  | op :: ops => do
    let c ← changeOf tx op
    return c.toList ++ (← changesOf tx ops)

/-- The origin whose record a step writes, if it writes one. -/
def originOf? (op : Operation) : Option OriginId :=
  match op.written? with
  | some (.origin o, _) => some o
  | _ => none

/-- Rebuilds the work after a commit. -/
def recover (u : Unfinished) : Reading Batch :=
  match u.2 with
  | .stopped b => return b
  | _ => do
    let changes ← changesOf u.1 u.1.operations
    match (u.1.operations.filterMap originOf?).getLast? with
    | some o => return ⟨u.1.id, some o, changes, []⟩
    | none => return ⟨u.1.id, none, [], []⟩

end Engine

end ClearanceGraph
