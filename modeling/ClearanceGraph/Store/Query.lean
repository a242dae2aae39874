import ClearanceGraph.Store.Basic

/-!
# Queries and histories

  A query asks for the documents that show at one instant, a history for all
  versions of one document with the intervals in which they show.
-/

namespace ClearanceGraph

/-- Which documents are asked for. -/
inductive Query where
  | key (k : DocumentKey)
  /-- Objects, of one type or of all. -/
  | objects (objectType : Option String)
  | edges
  /-- Edges that have an object as an end. -/
  | touching (r : Reference)
  | origins
  /-- Records of origins that assert a fact. -/
  | asserting (f : Fact)
  | declarations
  | profiles
  | outbox

namespace DocumentKey

/-- Whether an edge is filed under the key. -/
def isEdge : DocumentKey → Bool
  | fact (.edge _) => true
  | _ => false

/-- Whether a declared level is filed under the key. -/
def isDeclaration : DocumentKey → Bool
  | fact (.declaration _) => true
  | _ => false

/-- Whether the record of an origin is filed under the key. -/
def isOrigin : DocumentKey → Bool
  | origin _ => true
  | _ => false

/-- Whether a profile is filed under the key. -/
def isProfile : DocumentKey → Bool
  | profile _ => true
  | _ => false

/-- Whether a batch that waits is filed under the key. -/
def isOutbox : DocumentKey → Bool
  | outbox _ => true
  | _ => false

end DocumentKey

/-- Whether a document is an object of a type, or of any. -/
def Document.isObjectOf (objectType : Option String) (d : Document) : Bool :=
  d.object?.any fun o => objectType.all (o.objectType == ·)

/-- Whether a document is the record of an origin that asserts a fact. -/
def Document.isRecordAsserting (f : Fact) (d : Document) : Bool :=
  d.origin?.any (·.asserts f)

/-- A version with the interval in which it shows. -/
structure Dated where
  /-- From its valid time to that of the next version. -/
  valid : Interval
  transaction : TransactionId
  /-- The document; none after a delete. -/
  document : Option Document

namespace Store

/-- The documents that a query finds at an instant. -/
def query (s : Store) (t : Instant) : Query → List Document
  | .key k => (s.visible t k).toList
  | .objects objectType => s.visibleWhere t fun _ d => d.isObjectOf objectType
  | .edges => s.visibleWhere t fun k _ => k.isEdge
  | .touching r => (s.edgesAt r).filterMap fun e => s.visible t (.fact (.edge e))
  | .origins => s.visibleWhere t fun k _ => k.isOrigin
  | .asserting f => s.visibleWhere t fun _ d => d.isRecordAsserting f
  | .declarations => s.visibleWhere t fun k _ => k.isDeclaration
  | .profiles => s.visibleWhere t fun k _ => k.isProfile
  | .outbox => s.visibleWhere t fun k _ => k.isOutbox

/-- Dates sorted versions: each ends where the next one starts. -/
def date : List Version → Except StorageError (List Dated)
  | [] => .ok []
  | v :: vs => do
    let open_ := Interval.startingAt v.validFrom
    let valid ← match vs with
      | [] => .ok open_
      | w :: _ =>
        match open_.closeAt w.validFrom with
        | .ok i => .ok i
        | .error e => .error (.backend (ValidationError.closedBeforeStart e).message)
    return ⟨valid, v.transaction, v.document⟩ :: (← date vs)

/-- The versions of a key by valid time, then by commit. -/
def history (s : Store) (k : DocumentKey) : Except StorageError (List Dated) :=
  date (sortBy Version.order (s.versionsOf k))

/-- The keys whose versions an object can be seen to change by. -/
def keysAround (s : Store) (r : Reference) : List DocumentKey :=
  .fact (.object r) :: .fact (.declaration r) :: .profile r ::
    (s.edgesAt r).map fun e => .fact (.edge e)

/-- The valid times after an instant at which a version starts of one of some objects,
of its declared level or profile, or of an edge ever written at it. -/
def validTimesAfter (s : Store) (t : Instant) (rs : List Reference) : KeySet Instant :=
  KeySet.ofList <| (rs.flatMap s.keysAround).flatMap fun k =>
    ((s.versionsOf k).map (·.validFrom)).filter (t < ·)

end Store

/-- The newest of dated versions. -/
def newest? (vs : List Dated) : Option Dated :=
  lastMax? (fun v w => (compare v.valid.start w.valid.start).then
    (compare v.transaction w.transaction))
    vs

end ClearanceGraph
