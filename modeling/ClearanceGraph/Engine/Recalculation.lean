import ClearanceGraph.Engine.Recovery

/-!
# Recalculation — retrying and repairing

  First the batches that wait are sent, then unfinished commits are taken up,
  then every level is computed anew as of now.
-/

namespace ClearanceGraph

/-- What a recalculation came to. -/
structure RecalculationReport where
  republished : List TransactionId
  retried : List TransactionId
  full : Report

namespace Engine

/-- Takes up unfinished commits, one after another. -/
def retryAll : List Unfinished → Work (List TransactionId)
  | [] => return []
  | u :: us => do
    let job ← Work.act (World.read (recover u))
    let _ ← (flush job : StateM System Flush)
    return job.transaction :: (← retryAll us)

/-- Recalculates once. -/
def recalculate : Work RecalculationReport := do
  let c ← Work.config
  let republished ← Work.act (Publisher.republishPending c.publisher)
  Work.modifyBarrier fun b => republished.foldl Barrier.complete b
  let retried ← retryAll (← unfinished)
  let full ← Work.act (Pass.full c.levels c.spread (← Work.act World.now))
  match full.eventTransaction with
  | none => return ⟨republished, retried, full⟩
  | some t =>
    Work.act (Publisher.publish c.publisher ⟨t, none, [], full.deltas⟩)
    return ⟨republished, retried, full⟩

end Engine

end ClearanceGraph
