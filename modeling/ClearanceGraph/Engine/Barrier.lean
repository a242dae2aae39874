import ClearanceGraph.World

/-!
# The barrier — commits that still owe something

  A submit takes a ticket before it reaches the store. The ticket ends as a commit,
  which is pending until its levels and messages are out, or it is dropped.
-/

namespace ClearanceGraph

/-- Open tickets and pending commits. -/
structure Barrier where
  /-- The number of tickets that are open. -/
  inFlight : Nat
  pending : KeySet TransactionId

namespace Barrier

/-- No tickets and no commits. -/
def empty : Barrier := ⟨0, Table.empty⟩

def begin (b : Barrier) : Barrier := { b with inFlight := b.inFlight + 1 }

/-- Ends a ticket as a commit. -/
def commit (b : Barrier) (t : TransactionId) : Barrier :=
  ⟨b.inFlight - 1, KeySet.add b.pending t⟩

/-- Ends a ticket without a commit. -/
def drop (b : Barrier) : Barrier := { b with inFlight := b.inFlight - 1 }

/-- Marks a commit as done. -/
def complete (b : Barrier) (t : TransactionId) : Barrier :=
  { b with pending := b.pending.erase t }

/-- Whether no ticket is open and no commit up to a number is pending. -/
def isSettled (b : Barrier) (bound : TransactionId) : Bool :=
  b.inFlight == 0 && b.pending.keys.head?.all fun first => decide (bound < first)

/-- Whether the store has come to a number and all up to it is settled. A store out of
reach has come to nothing. -/
def awaitFlush (b : Barrier) (bound : TransactionId) : StateM World Bool := do
  match ← (World.read Reading.latest).run with
  | .ok (some latest) => return decide (bound ≤ latest) && b.isSettled bound
  | _ => return false

end Barrier

end ClearanceGraph
