import ClearanceGraph.Config.Basic
import ClearanceGraph.Graph.Json
import ClearanceGraph.Json.Parser

/-!
# The written form of a configuration

  A written configuration names only what it changes: absent fields keep their
  defaults. A rule has to name its relation.
-/

namespace ClearanceGraph

open Json (asNat? asString? asList? asOption?)

/-- The largest number of 32 bits. -/
def word32 : Nat := UInt32.size - 1

/-- The largest number of 64 bits. -/
def word64 : Nat := UInt64.size - 1

/-! ## Reading -/

def RetryPolicy.ofJson? (j : Json) : Option RetryPolicy := do
  let r ← j.fields ["max_attempts", "base_delay_ms", "max_delay_ms"]
  let d := RetryPolicy.standard
  RetryPolicy.make? (← r.defaulted "max_attempts" d.maxAttempts (asNat? word32))
    (← r.defaulted "base_delay_ms" d.baseDelay (asNat? word64))
    (← r.defaulted "max_delay_ms" d.maxDelay (asNat? word64))

/-- Reads the scale of levels. -/
def LevelConfig.ofJson? (j : Json) : Option LevelConfig := do
  let r ← j.fields ["max", "default"]
  let d := LevelConfig.standard
  return ⟨← r.defaulted "max" d.highest Level.ofJson?,
    ← r.defaulted "default" d.default Level.ofJson?⟩

/-- Reads how runs are reconciled. -/
def ReconcileConfig.ofJson? (j : Json) : Option ReconcileConfig := do
  let r ← j.fields ["cascade", "retry"]
  let d := ReconcileConfig.standard
  return ⟨← r.defaulted "cascade" d.cascade
    (Json.alternative? .inPlace CascadePolicy.names),
    ← r.defaulted "retry" d.retry RetryPolicy.ofJson?⟩

def Rule.ofJson? (j : Json) : Option Rule := do
  let r ← j.fields ["relation", "direction", "decay", "max_issue", "max_inherit"]
  return ⟨← r.required "relation" asString?,
    ← r.defaulted "direction" .both (Json.alternative? .inPlace Direction.names),
    ← r.defaulted "decay" none (asOption? (asNat? 255)),
    ← r.defaulted "max_issue" none (asOption? Level.ofJson?),
    ← r.defaulted "max_inherit" none (asOption? Level.ofJson?)⟩

def SpreadConfig.ofJson? (j : Json) : Option SpreadConfig := do
  let r ← j.fields ["max_depth", "default_decay", "node_budget", "rules", "retry"]
  let d := SpreadConfig.standard
  return ⟨← r.defaulted "max_depth" d.maxDepth (asNat? word32),
    ← r.defaulted "default_decay" d.defaultDecay (asNat? 255),
    ← r.defaulted "node_budget" d.nodeBudget (asNat? word64),
    ← r.defaulted "rules" d.rules (asList? Rule.ofJson?),
    ← r.defaulted "retry" d.retry RetryPolicy.ofJson?⟩

/-- Reads where messages go. -/
def PublisherConfig.ofJson? (j : Json) : Option PublisherConfig := do
  let r ← j.fields ["increments_topic", "mutations_topic", "graph_changes_topic", "retry"]
  let d := PublisherConfig.standard
  return ⟨← r.defaulted "increments_topic" d.incrementsTopic asString?,
    ← r.defaulted "mutations_topic" d.mutationsTopic asString?,
    ← r.defaulted "graph_changes_topic" d.graphChangesTopic (asOption? asString?),
    ← r.defaulted "retry" d.retry RetryPolicy.ofJson?⟩

/-- Reads a section with a single number. -/
def singleNumber? (name : String) (otherwise : Nat) (j : Json) : Option Nat := do
  let r ← j.fields [name]
  r.defaulted name otherwise (asNat? word64)

def Config.ofJson? (j : Json) : Option Config := do
  let r ← j.fields
    ["levels", "reconcile", "propagation", "publisher", "worker", "recalculation"]
  let d := Config.standard
  return ⟨← r.defaulted "levels" d.levels LevelConfig.ofJson?,
    ← r.defaulted "reconcile" d.reconcile ReconcileConfig.ofJson?,
    ← r.defaulted "propagation" d.spread SpreadConfig.ofJson?,
    ← r.defaulted "publisher" d.publisher PublisherConfig.ofJson?,
    ← r.defaulted "worker" d.queueCapacity (singleNumber? "queue_capacity" d.queueCapacity),
    ← r.defaulted "recalculation" d.interval (singleNumber? "interval_secs" d.interval)⟩

/-- Reads the text of a configuration, and checks that its parts fit together. -/
def Config.ofText (s : String) : Except ConfigError Config :=
  match (Json.parse? s).bind Config.ofJson? with
  | none => .error .unreadable
  | some c => do
    c.validate
    return c

/-! ## Writing -/

/-- A retry policy is written as its three numbers. -/
def RetryPolicy.toJson (p : RetryPolicy) : Json :=
  .object [("max_attempts", .int p.maxAttempts), ("base_delay_ms", .int p.baseDelay),
    ("max_delay_ms", .int p.maxDelay)]

/-- A rule is written with nulls for its gaps. -/
def Rule.toJson (r : Rule) : Json :=
  .object [("relation", .string r.relation), ("direction", .string r.direction.name),
    ("decay", Json.ofOption (fun (n : Nat) => .int n) r.decay),
    ("max_issue", Json.ofOption Level.toJson r.maxIssue),
    ("max_inherit", Json.ofOption Level.toJson r.maxInherit)]

/-- A configuration is written with all its sections. -/
def Config.toJson (c : Config) : Json :=
  .object [
    ("levels",
      .object [("max", c.levels.highest.toJson), ("default", c.levels.default.toJson)]),
    ("reconcile", .object [("cascade", .string c.reconcile.cascade.name),
      ("retry", c.reconcile.retry.toJson)]),
    ("propagation", .object [("max_depth", .int c.spread.maxDepth),
      ("default_decay", .int c.spread.defaultDecay),
        ("node_budget", .int c.spread.nodeBudget),
      ("rules", .array (c.spread.rules.map Rule.toJson)),
        ("retry", c.spread.retry.toJson)]),
    ("publisher", .object [("increments_topic", .string c.publisher.incrementsTopic),
      ("mutations_topic", .string c.publisher.mutationsTopic),
      ("graph_changes_topic", Json.ofOption .string c.publisher.graphChangesTopic),
      ("retry", c.publisher.retry.toJson)]),
    ("worker", .object [("queue_capacity", .int c.queueCapacity)]),
    ("recalculation", .object [("interval_secs", .int c.interval)])]

end ClearanceGraph
