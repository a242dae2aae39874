import ClearanceGraph.Store.Query

/-!
# Readings — enquiries that ask the store and change nothing

  A reading gives a result or fails, and counts how often it asked. Every ask can
  find the store out of reach; so the count tells whether it got that far.
-/

namespace ClearanceGraph

/-- An enquiry: its result, and how often the store was asked. -/
def Reading (α : Type) : Type := Store → Except GraphError α × Nat

namespace Reading

variable {α β : Type}

/-- A result that asks nothing. -/
def pure (a : α) : Reading α := fun _ => (.ok a, 0)

/-- A failure that asks nothing. -/
def fail (e : GraphError) : Reading α := fun _ => (.error e, 0)

/-- One reading after another; nothing follows a failure. -/
def bind (r : Reading α) (f : α → Reading β) : Reading β := fun s =>
  match r s with
  | (.ok a, n) =>
    let (b, m) := f a s
    (b, n + m)
  | (.error e, n) => (.error e, n)

instance : Monad Reading where
  pure := pure
  bind := bind

instance : MonadExcept GraphError Reading where
  throw := fail
  tryCatch r f := fun s =>
    match r s with
    | (.error e, n) =>
      let (b, m) := f e s
      (b, n + m)
    | r => r

/-- Asks once. -/
def ask (f : Store → α) : Reading α := fun s => (.ok (f s), 1)

/-- Asks once; a failure of the store is one of the reading. -/
def askOr (f : Store → Except StorageError α) : Reading α := fun s =>
  ((f s).mapError .ofStorage, 1)

/-- The documents that a query finds at an instant. -/
def query (t : Instant) (q : Query) : Reading (List Document) := ask fun s => s.query t q

/-- The document of a key that shows at an instant. -/
def get (t : Instant) (k : DocumentKey) : Reading (Option Document) := do
  return (← query t (.key k)).head?

/-- All versions of a document. -/
def history (k : DocumentKey) : Reading (List Dated) := askOr fun s => s.history k

/-- The last commit. -/
def latest : Reading (Option TransactionId) := ask Store.lastId

/-- The commit of a number. -/
def transaction (id : TransactionId) : Reading (Option Committed) :=
  ask fun s => s.transaction? id

/-- The valid times after an instant at which something around some objects changes. -/
def validTimesAfter (t : Instant) (rs : List Reference) : Reading (KeySet Instant) :=
  ask fun s => s.validTimesAfter t rs

end Reading

end ClearanceGraph
