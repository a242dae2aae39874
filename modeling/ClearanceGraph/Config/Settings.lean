import ClearanceGraph.Config.Basic
import ClearanceGraph.Text.Blank
import ClearanceGraph.Text.Numeral

/-!
# Settings — a configuration from named texts

  Eight settings replace defaults. A setting that is there has to be readable;
  blanks around it do not count. The first unreadable one decides the fault, and
  soundness is checked at the end.
-/

namespace ClearanceGraph

abbrev Settings := String → Option String

namespace Settings

/-- A setting read by `f`, if it is there. -/
def read {α : Type} (s : Settings) (name : String) (f : List Char → Option α) :
    Except ConfigError (Option α) :=
  match s name with
  | none => .ok none
  | some raw =>
    match f (Text.trim raw.toList) with
    | some a => .ok (some a)
    | none => .error (.invalidValue name raw)

/-- A whole number up to a bound. -/
def number (bound : Nat) (cs : List Char) : Option Nat := Text.unsigned? bound cs

def level (cs : List Char) : Option Level := (Text.unsigned? 255 cs).bind Level.ofNat?

/-- A number of attempts, in the policy that it changes. -/
def attempts (p : RetryPolicy) (cs : List Char) : Option RetryPolicy :=
  (Text.unsigned? (UInt32.size - 1) cs).bind fun n =>
    RetryPolicy.make? n p.baseDelay p.maxDelay

/-- The name of a policy. -/
def cascade (cs : List Char) : Option CascadePolicy :=
  CascadePolicy.names.lookup (String.ofList cs)

end Settings

/-- The configuration of some settings. -/
def Config.ofSettings (s : Settings) : Except ConfigError Config := do
  let d := Config.standard
  let interval ← s.read "SCAN_LEVEL_RECALCULATION_INTERVAL"
    (Settings.number (UInt64.size - 1))
  let highest ← s.read "SCAN_LEVEL_MAX" Settings.level
  let default ← s.read "SCAN_LEVEL_DEFAULT" Settings.level
  let depth ← s.read "SCAN_PROFILE_MAX_DEPTH" (Settings.number (UInt32.size - 1))
  let decay ← s.read "SCAN_PROFILE_DEFAULT_DECAY" (Settings.number 255)
  let budget ← s.read "SCAN_PROFILE_NODE_BUDGET" (Settings.number (UInt64.size - 1))
  let cascade ← s.read "SCAN_PROFILE_CASCADE" Settings.cascade
  let retry ← s.read "PUBLISH_MAX_ATTEMPTS" (Settings.attempts d.publisher.retry)
  let c : Config :=
    { d with
      levels := ⟨highest.getD d.levels.highest, default.getD d.levels.default⟩
      reconcile := { d.reconcile with cascade := cascade.getD d.reconcile.cascade }
      spread := { d.spread with
        maxDepth := depth.getD d.spread.maxDepth
        defaultDecay := decay.getD d.spread.defaultDecay
        nodeBudget := budget.getD d.spread.nodeBudget }
      publisher := { d.publisher with retry := retry.getD d.publisher.retry }
      interval := interval.getD d.interval }
  c.validate
  return c

end ClearanceGraph
