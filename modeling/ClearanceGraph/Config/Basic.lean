import ClearanceGraph.Clearance.Rule
import ClearanceGraph.Retry

/-!
# Configuration — what an engine is told about itself

  Every part has defaults. A configuration is sound when the default level is on
  the scale and there is room for at least one hop and one job.
-/

namespace ClearanceGraph

/-- The scale of levels. -/
structure LevelConfig where
  /-- The highest level that can be declared. -/
  highest : Level
  /-- The level of objects that have none. -/
  default : Level
deriving DecidableEq

/-- What happens to the edges of an object that is retracted. -/
inductive CascadePolicy where
  /-- They stay if another origin asserts them. -/
  | retain
  | retractOrphanedEdges
deriving DecidableEq

namespace CascadePolicy

/-- The name of the policy. -/
def name : CascadePolicy → String
  | retain => "retain"
  | retractOrphanedEdges => "retract_orphaned_edges"

/-- The policies with their names. -/
def names : List (String × CascadePolicy) :=
  [retain, retractOrphanedEdges].map fun c => (c.name, c)

end CascadePolicy

/-- How runs are reconciled. -/
structure ReconcileConfig where
  /-- What happens to the edges of an object that is retracted. -/
  cascade : CascadePolicy
  /-- How often a plan is made and submitted. -/
  retry : RetryPolicy
deriving DecidableEq

/-- How levels spread. -/
structure SpreadConfig where
  /-- The largest number of hops of an inherited level. -/
  maxDepth : Nat
  /-- What a hop costs where no rule says otherwise. -/
  defaultDecay : Nat
  /-- How many objects a search may touch. -/
  nodeBudget : Nat
  rules : List Rule
  retry : RetryPolicy
deriving DecidableEq

/-- How a relation carries levels. -/
def SpreadConfig.passage (c : SpreadConfig) (relation : String) : Passage :=
  passageOf c.rules c.defaultDecay relation

/-- Where messages go. -/
structure PublisherConfig where
  incrementsTopic : String
  mutationsTopic : String
  /-- The topic of changed facts; none means that they are not published. -/
  graphChangesTopic : Option String
  retry : RetryPolicy
deriving DecidableEq

/-- The configuration of an engine. -/
structure Config where
  levels : LevelConfig
  reconcile : ReconcileConfig
  spread : SpreadConfig
  /-- Where messages go. -/
  publisher : PublisherConfig
  queueCapacity : Nat
  interval : Nat
deriving DecidableEq

/-! ## Defaults -/

/-- Levels go up to four, the default is zero. -/
def LevelConfig.standard : LevelConfig := ⟨⟨4, by decide⟩, .zero⟩

def ReconcileConfig.standard : ReconcileConfig := ⟨.retain, .standard⟩

/-- Eight hops without decay, and room for a hundred thousand objects. -/
def SpreadConfig.standard : SpreadConfig := ⟨8, 0, 100000, [], .standard⟩

/-- Two topics for levels, none for facts. -/
def PublisherConfig.standard : PublisherConfig :=
  ⟨"scan_profile_increments", "scan_profile_mutations", none, .standard⟩

/-- All defaults; 1024 jobs wait, and a minute lies between recalculations. -/
def Config.standard : Config := ⟨.standard, .standard, .standard, .standard, 1024, 60⟩

instance : Inhabited Config := ⟨.standard⟩

/-! ## Soundness -/

/-- What is wrong with a configuration. -/
inductive ConfigDefect where
  /-- The default level is above the highest one. -/
  | defaultAboveHighest (default highest : Level)
  /-- There is no room for a hop. -/
  | noDepth
  /-- There is no room for a job. -/
  | noCapacity
  | stated (text : String)
deriving DecidableEq

/-- The wording of a defect. -/
def ConfigDefect.message : ConfigDefect → String
  | defaultAboveHighest d h => "default level " ++ d.display ++ " exceeds max level " ++
    h.display
  | noDepth => "propagation max_depth must be at least 1"
  | noCapacity => "worker queue_capacity must be at least 1"
  | stated t => t

/-- A fault in a configuration. -/
inductive ConfigError where
  /-- The text is not of the form of a configuration. -/
  | unreadable
  | invalidValue (name value : String)
  | invalid (defect : ConfigDefect)
deriving DecidableEq

/-- The wording of a fault. An unreadable text has no wording of its own. -/
def ConfigError.message : ConfigError → String
  | unreadable => "Failed to parse configuration"
  | invalidValue name value => "Invalid value '" ++ value ++ "' for " ++ name
  | invalid d => "Invalid configuration: " ++ d.message

/-- Checks that the parts of a configuration fit together; the first defect counts. -/
def Config.validate (c : Config) : Except ConfigError Unit :=
  if c.levels.highest < c.levels.default then
    .error (.invalid (.defaultAboveHighest c.levels.default c.levels.highest))
  else if c.spread.maxDepth = 0 then .error (.invalid .noDepth)
  else if c.queueCapacity = 0 then .error (.invalid .noCapacity)
  else .ok ()

end ClearanceGraph
