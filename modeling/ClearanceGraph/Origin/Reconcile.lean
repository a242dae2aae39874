import ClearanceGraph.Origin.Plan
import ClearanceGraph.World

/-!
# Reconciling — runs and retirements become commits

  A plan is made from the store and submitted. When the store is out of reach,
  or the record changed in between, a new plan is made, as often as the policy
  allows.
-/

namespace ClearanceGraph

/-- What a run or a retirement came to. -/
structure Outcome where
  /-- The commit; none if nothing changed. -/
  transaction : Option TransactionId
  origin : OriginId
  /-- Since when the changes hold. -/
  validTime : Instant
  changes : List Change
  /-- The facts that the origin dropped and others keep. -/
  shared : List Fact

namespace Outcome

def unchanged (o : OriginId) (t : Instant) : Outcome := ⟨none, o, t, [], []⟩

/-- How many changes are of a kind. -/
def count (r : Outcome) (k : ChangeKind) : Nat := r.changes.countP (·.kind == k)

end Outcome

namespace Reconcile

/-- Whether a new plan may succeed. -/
def mayPass : GraphError → Bool
  | .storeUnavailable _ _ => true
  | .concurrentModification _ _ => true
  | _ => false

/-- The failure with the number of attempts that were made. -/
def withAttempts (n : Nat) : GraphError → GraphError
  | .storeUnavailable _ t => .storeUnavailable n t
  | .concurrentModification o _ => .concurrentModification o n
  | e => e

/-- Submits a plan. A match that fails means that the record has changed. -/
def submit (o : OriginId) (p : Plan) : Act Outcome := do
  match ← World.submit p.transaction with
  | .ok id => return ⟨some id, o, p.validTime, p.changes, p.shared⟩
  | .error (.matchFailed _) => throw (.concurrentModification o 1)
  | .error e => throw (.ofStorage e)

/-- Makes a plan and submits it, once. -/
def attempt (o : OriginId) (t : Instant) (plan : Reading (Option Plan)) : Act Outcome := do
  match ← World.read plan with
  | none => return .unchanged o t
  | some p => submit o p

/-- Makes plans and submits them until one commits or attempts run out. -/
def commit (policy : RetryPolicy) (o : OriginId) (t : Instant)
    (plan : Reading (Option Plan)) :
    Act Outcome := ExceptT.mk do
  let (r, attempts) ← policy.run mayPass (fun _ _ => pure ()) (attempt o t plan).run
  return r.mapError (withAttempts attempts)

/-- Reconciles a run of an origin. -/
def reconcile (levels : LevelConfig) (config : ReconcileConfig) (r : Run) :
    Act Outcome := do
  match r.validate levels.highest with
  | .error e => throw (.validation e)
  | .ok _ => commit config.retry r.origin r.validTime (Plan.ofRun config.cascade r)

/-- Retires an origin: removes what only it asserts, and its record. -/
def retire (config : ReconcileConfig) (o : OriginId) (t : Instant) : Act Outcome := do
  if o.isEmpty then throw (.validation .emptyOriginId)
  commit config.retry o t (Plan.ofRetirement config.cascade o t)

end Reconcile

end ClearanceGraph
