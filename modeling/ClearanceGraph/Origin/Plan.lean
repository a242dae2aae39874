import ClearanceGraph.Origin.Ledger
import ClearanceGraph.Origin.Run

/-!
# Plans — from a run to a transaction

  A run is the complete list of what its origin asserts. Its plan puts what is
  new or different, removes what the origin no longer asserts unless another
  origin does, and replaces the record. A run that changes nothing has no plan.
-/

namespace ClearanceGraph

/-- A transaction with what it does to facts. -/
structure Plan where
  transaction : Transaction
  /-- The changes of facts that it makes. -/
  changes : List Change
  /-- The facts that the origin drops and others keep. -/
  shared : List Fact

namespace Plan

/-- The plan that does nothing. -/
def empty (t : Instant) : Plan := ⟨.empty t, [], []⟩

/-- When the plan is to hold. -/
def validTime (p : Plan) : Instant := p.transaction.validTime

/-- The plan with one more step. -/
def push (p : Plan) (op : Operation) : Plan :=
  { p with transaction := p.transaction.push op }

/-- The plan with one more change. -/
def record (p : Plan) (f : Fact) (k : ChangeKind) : Plan :=
  { p with changes := p.changes ++ [⟨f, k⟩] }

/-- The plan with one more shared fact. -/
def share (p : Plan) (f : Fact) : Plan := { p with shared := p.shared ++ [f] }

/-- Whether the plan writes a key. -/
def writes (p : Plan) (k : DocumentKey) : Bool :=
  p.transaction.operations.any fun op => op.isWrite && op.key == k

/-- Puts a content unless the same is there. -/
def putIfChanged (p : Plan) (f : Fact) (c : Content) : Reading Plan := do
  let d := Document.content c
  match ← Reading.get p.validTime d.key with
  | none => return (p.push (.put d)).record f .created
  | some current =>
    if current == d then return p else return (p.push (.put d)).record f .updated

/-- Puts each content of a list unless the same is there. -/
def putAll : List (Fact × Content) → Plan → Reading Plan
  | [], p => return p
  | (f, c) :: rest, p => do putAll rest (← p.putIfChanged f c)

/-! ## Dropped facts -/

/-- The records by which other origins keep a fact: the latest one decides its content. -/
def survivor? (o : OriginId) (owners : List OriginRecord) : Option OriginRecord :=
  lastMax? (fun a b => (compare a.validTime b.validTime).then (compare a.id b.id))
    (owners.filter (·.id != o))

/-- Removes a fact that its origin drops, or leaves it to the latest other origin that
asserts it. Gives the removed objects with the plan. -/
def dropFact (o : OriginId) (f : Fact) (p : Plan) (gone : KeySet Reference) :
    Reading (Plan × KeySet Reference) := do
  match survivor? o (← Ledger.owners f) with
  | some r =>
    let p := p.share f
    match r.content? f with
    | some c => return (← p.putIfChanged f c, gone)
    | none => return (p, gone)
  | none =>
    match ← Reading.get p.validTime (.fact f) with
    | none => return (p, gone)
    | some _ =>
      let p := (p.push (.delete (.fact f))).record f .retracted
      match f with
      | .object r => return (p, gone.add r)
      | _ => return (p, gone)

/-- Drops the facts of a list, one after another. -/
def dropAll (o : OriginId) :
    List Fact → Plan → KeySet Reference → Reading (Plan × KeySet Reference)
  | [], p, gone => return (p, gone)
  | f :: fs, p, gone => do
    let (p, gone) ← dropFact o f p gone
    dropAll o fs p gone

/-- Removes an edge of a removed object, unless the run asserts it or the plan has it
already. -/
def removeEdge (asserted : Table Fact Content) (p : Plan) (e : Edge) : Plan :=
  let f := Fact.edge e.key
  if asserted.contains f || p.writes (.fact f) then p
  else (p.push (.delete (.fact f))).record f .retracted

/-- Removes the edges of the removed objects, object by object. -/
def removeEdges (asserted : Table Fact Content) : List Reference → Plan → Reading Plan
  | [], p => return p
  | r :: rs, p => do
    let ds ← Reading.query p.validTime (.touching r)
    removeEdges asserted rs ((ds.filterMap Document.edge?).foldl (removeEdge asserted) p)

/-- Removes what an origin drops, and the edges of removed objects where the policy says
so. -/
def retract (policy : CascadePolicy) (o : OriginId) (dropped : List Fact)
    (asserted : Table Fact Content) (p : Plan) : Reading (Plan × KeySet Reference) := do
  let (p, gone) ← dropAll o dropped p Table.empty
  match policy with
  | .retain => return (p, gone)
  | .retractOrphanedEdges => return (← removeEdges asserted gone.toList p, gone)

/-! ## Dependencies -/

/-- Checks that an object is there after the plan: asserted by the run, or there and not
removed. -/
def checkPresent (present gone : KeySet Reference) (t : Instant) (d : Dependent)
    (r : Reference) :
    Reading Unit := do
  if present.contains r then return ()
  if gone.contains r then throw (.dependencyMissing d r)
  match ← Reading.get t (.fact (.object r)) with
  | some _ => return ()
  | none => throw (.dependencyMissing d r)

/-- What a run needs: the ends of its edges, then the objects of its declared levels. -/
def needs (r : Run) : List (Dependent × Reference) :=
  r.edges.flatMap (fun e => [(.edge e.key, e.key.source), (.edge e.key, e.key.target)]) ++
    r.declarations.map fun d => (.declaration d.reference, d.reference)

/-- Checks what a run needs, in order. -/
def checkAll (present gone : KeySet Reference) (t : Instant) :
    List (Dependent × Reference) → Reading Unit
  | [] => return ()
  | (d, r) :: rest => do
    checkPresent present gone t d r
    checkAll present gone t rest

/-! ## Plans of runs and retirements -/

/-- Checks that an origin does not report for an earlier time than before. -/
def checkNotStale (o : OriginId) (t : Instant) : Reading Unit := do
  match ← Ledger.lastSeen o with
  | none => return ()
  | some recorded => if t < recorded then throw (.staleOrigin o t recorded)

/-- The facts of a record that a run no longer asserts. -/
def droppedBy (previous : Option OriginRecord) (asserted : Table Fact Content) :
    List Fact :=
  previous.elim [] fun p => p.result.keys.filter fun f => !asserted.contains f

/-- Whether a run asserts the same as the record before; a new origin that asserts
nothing does. -/
def isUnchanged (previous : Option OriginRecord) (asserted : Table Fact Content) : Bool :=
  previous.elim asserted.isEmpty fun p => p.result == asserted

/-- The plan of a run; none if it changes nothing. -/
def ofRun (policy : CascadePolicy) (r : Run) : Reading (Option Plan) := do
  checkNotStale r.origin r.validTime
  let previous ← Ledger.previous r.origin
  if let some p := previous then
    if p.method ≠ r.method then
      throw (.validation (.methodMismatch r.origin p.method r.method))
  let asserted := r.asserted
  let p ← putAll asserted.entries (.empty r.validTime)
  let (p, gone) ← retract policy r.origin (droppedBy previous asserted) asserted p
  checkAll (KeySet.ofList (r.objects.map (·.reference))) gone r.validTime (needs r)
  if p.transaction.isEmpty && isUnchanged previous asserted then return none
  let record : OriginRecord :=
    ⟨r.origin, r.method, r.validTime, asserted, previous.elim 1 (·.runs + 1)⟩
  return some { p with transaction := Ledger.setCurrent p.transaction previous record }

/-- The plan of a retirement; none if the origin is unknown. -/
def ofRetirement (policy : CascadePolicy) (o : OriginId) (t : Instant) :
    Reading (Option Plan) := do
  checkNotStale o t
  match ← Ledger.previous o with
  | none => return none
  | some previous =>
    let (p, _) ← retract policy o previous.result.keys Table.empty (.empty t)
    return some { p with transaction := Ledger.retire p.transaction previous }

end Plan

end ClearanceGraph
