import ClearanceGraph.Error.Basic
import ClearanceGraph.Order.Choice
import ClearanceGraph.Store.Document
import ClearanceGraph.Time.Interval

/-!
# The store — versions of documents over valid time

  Nothing is removed: a delete appends a version without a document. The version
  that shows at an instant is the one with the greatest valid time up to it, and
  of those the one that was committed last. A transaction applies as a whole or
  not at all.
-/

namespace ClearanceGraph

/-- A version of a document. -/
structure Version where
  /-- Since when it holds. -/
  validFrom : Instant
  transaction : TransactionId
  /-- The document; none after a delete. -/
  document : Option Document

/-- Versions are ordered by valid time, then by commit. -/
def Version.order (v w : Version) : Ordering :=
  (compare v.validFrom w.validFrom).then (compare v.transaction w.transaction)

/-- A transaction as the log keeps it. -/
structure Committed where
  id : TransactionId
  /-- Since when its steps hold. -/
  validTime : Instant
  /-- Its steps, matches included. -/
  operations : List Operation

/-- Versions of documents, the edges ever written by their ends, and the log. -/
structure Store where
  /-- The versions of each key, in the order in which they were written. -/
  versions : Table DocumentKey (List Version)
  /-- Every edge ever written, by its ends. -/
  endpoints : Table Reference (KeySet EdgeKey)
  /-- The commits, oldest first. -/
  log : List Committed

namespace Store

def empty : Store := ⟨Table.empty, Table.empty, []⟩

instance : Inhabited Store := ⟨empty⟩

/-! ## What shows at an instant -/

/-- The version of a list that shows at an instant. -/
def showing (t : Instant) (vs : List Version) : Option Version :=
  lastMax? Version.order (vs.filter fun v => v.validFrom ≤ t)

/-- The versions of a key. -/
def versionsOf (s : Store) (k : DocumentKey) : List Version := (s.versions.get? k).getD []

/-- The document of a key that shows at an instant. -/
def visible (s : Store) (t : Instant) (k : DocumentKey) : Option Document :=
  (showing t (s.versionsOf k)).bind (·.document)

/-- The documents that show at an instant, of the keys that satisfy `p`, by ascending
key. -/
def visibleWhere (s : Store) (t : Instant) (p : DocumentKey → Document → Bool) :
    List Document :=
  s.versions.keys.filterMap fun k => (s.visible t k).filter (p k)

/-- The edges ever written at an object. -/
def edgesAt (s : Store) (r : Reference) : List EdgeKey :=
  (s.endpoints.get? r).elim [] KeySet.toList

/-! ## Commits -/

/-- The number of the last commit. -/
def lastId (s : Store) : Option TransactionId := s.log.getLast?.map (·.id)

/-- The number of the next commit; the first one is one. -/
def nextId (s : Store) : TransactionId := ⟨s.lastId.elim 1 (·.value + 1)⟩

/-- Notes an edge at both of its ends. -/
def noteEdge (e : Table Reference (KeySet EdgeKey)) (k : EdgeKey) :
    Table Reference (KeySet EdgeKey) :=
  let note (e : Table Reference (KeySet EdgeKey)) (r : Reference) :=
    e.update r fun ks => KeySet.add (ks.getD Table.empty) k
  note (note e k.source) k.target

/-- Appends a version of a key. -/
def write (s : Store) (k : DocumentKey) (v : Version) : Store :=
  { s with
    versions := s.versions.update k fun vs => vs.getD [] ++ [v]
    endpoints := match k with
      | .fact (.edge e) => noteEdge s.endpoints e
      | _ => s.endpoints }

/-- Applies a step of a commit. -/
def apply (id : TransactionId) (t : Instant) (s : Store) (op : Operation) : Store :=
  match op.written? with
  | some (k, d) => s.write k ⟨t, id, d⟩
  | none => s

/-- Whether a step sees what it expects. -/
def accepts (s : Store) (t : Instant) : Operation → Bool
  | .expect k d => s.visible t k == d
  | _ => true

/-- Commits a transaction and gives its number. The first match that fails stops it. -/
def submit (s : Store) (tx : Transaction) : Except StorageError (TransactionId × Store) :=
  match tx.operations.find? fun op => !s.accepts tx.validTime op with
  | some op => .error (.matchFailed op.key)
  | none =>
    let id := s.nextId
    let s' := tx.operations.foldl (apply id tx.validTime) s
    .ok (id, { s' with log := s.log ++ [⟨id, tx.validTime, tx.operations⟩] })

/-- The commit of a number. -/
def transaction? (s : Store) (id : TransactionId) : Option Committed :=
  if id.value = 0 then none else s.log[id.value - 1]?

/-- How many versions the store holds. -/
def versionCount (s : Store) : Nat := s.versions.values.flatten.length

end Store

end ClearanceGraph
