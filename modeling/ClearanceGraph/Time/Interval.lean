import ClearanceGraph.Time.Text

/-!
# Intervals of time

  An interval starts at an instant, which it contains, and ends before another,
  or is open. Closing an interval at its own start leaves it empty.
-/

namespace ClearanceGraph

/-- An interval, closed below and open above. -/
structure Interval where
  /-- Where it starts. -/
  start : Instant
  /-- Where it ends; none means that it has no end. -/
  stop : Option Instant
deriving DecidableEq

/-- A close time that lies before the start. -/
structure ClosedBeforeStart where
  start : Instant
  /-- The time it was to be closed at. -/
  close : Instant

namespace Interval

/-- The interval from an instant on. -/
def startingAt (t : Instant) : Interval := ⟨t, none⟩

/-- The interval closed at an instant. -/
def closeAt (i : Interval) (t : Instant) : Except ClosedBeforeStart Interval :=
  if t < i.start then .error ⟨i.start, t⟩ else .ok ⟨i.start, some t⟩

/-- Whether an instant lies in the interval. -/
def contains (i : Interval) (t : Instant) : Bool :=
  decide (i.start ≤ t) && i.stop.all fun u => decide (t < u)

def display (i : Interval) : String :=
  "[" ++ i.start.display ++ " → " ++ (i.stop.elim "∞" Instant.display) ++ ")"

end Interval

end ClearanceGraph
