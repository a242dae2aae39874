import ClearanceGraph.Origin.Basic
import ClearanceGraph.Time.Interval

/-!
# Faults in what is handed in

  Each cause has one wording. Whoever needs the cause looks at the constructor,
  whoever needs words at `message`.
-/

namespace ClearanceGraph

/-- What is wrong with a reference. -/
inductive ReferenceDefect where
  /-- Built from a type without any part of a key. -/
  | noParts
  | missingKey
  | emptyKey
  /-- The object has another type than its reference. -/
  | otherType (objectType : String)
deriving DecidableEq

/-- The wording of a defect. -/
def ReferenceDefect.message : ReferenceDefect → String
  | noParts => "natural key has no parts"
  | missingKey => "missing natural key"
  | emptyKey => "empty natural key"
  | otherType t => "object type '" ++ t ++ "' does not match key prefix"

/-- A fault in what is handed in. -/
inductive ValidationError where
  /-- The name of the origin has nothing but blanks. -/
  | emptyOriginId
  | invalidObjectType (objectType : String)
  /-- A name of an object that cannot be one. -/
  | invalidReference (reference : String) (defect : ReferenceDefect)
  | invalidRelation (relation : String)
  /-- A declared level above the highest one. -/
  | levelOutOfRange (level highest : Level)
  | declarationFromObservation (origin : OriginId)
  | methodMismatch (origin : OriginId) (registered submitted : Method)
  /-- A fact stands twice in one run. -/
  | duplicateFact (fact : Fact)
  /-- The text is not of the form of a run. -/
  | unreadablePayload
  /-- An interval was to end before it starts. -/
  | closedBeforeStart (cause : ClosedBeforeStart)

/-- The wording of a fault. An unreadable text has no wording of its own. -/
def ValidationError.message : ValidationError → String
  | emptyOriginId => "Origin id cannot be empty"
  | invalidObjectType t =>
      "Invalid object type '" ++ t ++ "': must match [A-Z][A-Za-z0-9_]*"
  | invalidReference r d => "Invalid reference '" ++ r ++ "': " ++ d.message
  | invalidRelation r => "Invalid relation name '" ++ r ++ "': must be lower snake case"
  | levelOutOfRange l m =>
    "Scan level " ++ toString l.value ++ " exceeds the configured maximum " ++
      toString m.value
  | declarationFromObservation o => "Observation origin '" ++ o.text ++
      "' cannot declare scan levels"
  | methodMismatch o e a =>
    "Origin '" ++ o.text ++ "' was registered as " ++ e.name ++ " but submitted as " ++
      a.name
  | duplicateFact f => "Duplicate " ++ f.kind ++ " '" ++ f.subjectText ++ "' in payload"
  | unreadablePayload => "Malformed payload"
  | closedBeforeStart c =>
    "Malformed payload: cannot close range starting " ++ c.start.display ++ " at " ++
      c.close.display

/-- Checks a level against the highest one. -/
def Level.check (l highest : Level) : Except ValidationError Level :=
  if highest < l then .error (.levelOutOfRange l highest) else .ok l

end ClearanceGraph
