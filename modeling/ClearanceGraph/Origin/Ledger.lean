import ClearanceGraph.Store.Reading

/-!
# The ledger — the latest record of each origin

  Records are documents of the store. Which record is the latest follows from
  all versions, whatever instant is looked at. A record is replaced under a match
  on the one before. The match looks at the valid time of the plan, so of two
  plans from one record the second is refused unless it is for an earlier time.
-/

namespace ClearanceGraph.Ledger

/-- The latest record of an origin; none if it is unknown or retired. -/
def previous (o : OriginId) : Reading (Option OriginRecord) := do
  match newest? (← Reading.history (.origin o)) with
  | none => return none
  | some v =>
    match v.document with
    | none => return none
    | some (.origin r) => return some r
    | some d => throw (.internal (.ledgerEntry o d.key))

/-- The latest instant at which an origin reported or was retired. -/
def lastSeen (o : OriginId) : Reading (Option Instant) := do
  return lastMax? compare ((← Reading.history (.origin o)).map (·.valid.start))

/-- The facts of the latest record of an origin. -/
def previousFacts (o : OriginId) : Reading (List Fact) := do
  return (← previous o).elim [] (·.result.keys)

/-- The latest records that assert a fact, by ascending origin. -/
def owners (f : Fact) : Reading (List OriginRecord) := do
  return (← Reading.query Instant.latest (.asserting f)).filterMap Document.origin?

/-- Replaces the record of an origin, if it is still the one before. -/
def setCurrent (tx : Transaction) (previous : Option OriginRecord) (record : OriginRecord) :
    Transaction :=
  (tx.push (.expect (.origin record.id) (previous.map .origin))).push
    (.put (.origin record))

/-- Removes the record of an origin, if it is still the one before. -/
def retire (tx : Transaction) (previous : OriginRecord) : Transaction :=
  (tx.push (.expect (.origin previous.id) (some (.origin previous)))).push
    (.delete (.origin previous.id))

end ClearanceGraph.Ledger
