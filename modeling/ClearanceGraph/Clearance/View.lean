import ClearanceGraph.Clearance.Survey
import ClearanceGraph.Store.Reading

/-!
# Views — answers to surveys

  A view belongs to one instant. It asks the store for each thing once and
  remembers the answer; a complete view was loaded as a whole and never asks.
-/

namespace ClearanceGraph

/-- What is known of the graph at an instant. -/
structure View where
  time : Instant
  /-- Everything is known: what is not in the tables is not in the graph. -/
  isComplete : Bool
  /-- The edges that have an object as an end. -/
  edges : Table Reference (List EdgeKey)
  /-- Whether an object exists. -/
  objects : Table Reference Bool
  /-- The level that is declared for an object. -/
  declared : Table Reference (Option Level)
  /-- The profile that is stored for an object. -/
  profiles : Table Reference (Option Profile)

namespace View

/-- The view that knows nothing. -/
def fresh (t : Instant) : View :=
  ⟨t, false, Table.empty, Table.empty, Table.empty, Table.empty⟩

/-! ## Loading -/

/-- Notes that an object exists. -/
def noteObject (v : View) (o : Object) : View :=
  { v with objects := v.objects.insert o.reference true }

/-- Notes an edge at both of its ends. -/
def noteEdge (v : View) (e : Edge) : View :=
  let note (es : Table Reference (List EdgeKey)) (r : Reference) :=
    es.update r fun ks => ks.getD [] ++ [e.key]
  { v with edges := note (note v.edges e.key.source) e.key.target }

def noteDeclaration (v : View) (d : DeclaredLevel) : View :=
  { v with declared := v.declared.insert d.reference (some d.level) }

def noteProfile (v : View) (p : Profile) : View :=
  { v with profiles := v.profiles.insert p.reference (some p) }

/-- Loads everything that shows at an instant. -/
def load (t : Instant) : Reading View := do
  let objects ← Reading.query t (.objects none)
  let edges ← Reading.query t .edges
  let declarations ← Reading.query t .declarations
  let profiles ← Reading.query t .profiles
  let v := (objects.filterMap Document.object?).foldl noteObject
    { fresh t with isComplete := true }
  let v := (edges.filterMap Document.edge?).foldl noteEdge v
  let v := (declarations.filterMap Document.declaration?).foldl noteDeclaration v
  return (profiles.filterMap Document.profile?).foldl noteProfile v

/-- The objects that exist and those that still have a profile, in a complete view. -/
def knownNodes (v : View) : KeySet Reference :=
  KeySet.ofList ((v.objects.entries.filter (·.2)).map (·.1) ++
    (v.profiles.entries.filter (·.2.isSome)).map (·.1))

/-- The existing objects with a declared level, ascending, in a complete view. -/
def declaredNodes (v : View) : List (Reference × Level) :=
  v.declared.entries.filterMap fun (r, l) =>
    if (v.objects.get? r).getD false then l.map fun l => (r, l) else none

/-! ## Asking -/

/-- Asks the store, unless the view is complete. -/
def ask {α : Type} (v : View) (otherwise : α) (r : Reading α) : Reading α :=
  if v.isComplete then pure otherwise else r

/-- Asks whether an object exists. -/
def askObject (v : View) (r : Reference) : Reading Bool :=
  v.ask false do return (← Reading.get v.time (.fact (.object r))).isSome

/-- Asks for the level that is declared for an object. -/
def askDeclaration (v : View) (r : Reference) : Reading (Option Level) :=
  v.ask none do
    return ((← Reading.get v.time (.fact (.declaration r))).bind
      Document.declaration?).map (·.level)

/-- Asks for the profile that is stored for an object. -/
def askProfile (v : View) (r : Reference) : Reading (Option Profile) :=
  v.ask none do return (← Reading.get v.time (.profile r)).bind Document.profile?

/-- Asks for the edges that have an object as an end. -/
def askEdges (v : View) (r : Reference) : Reading (List EdgeKey) :=
  v.ask [] do
    return ((← Reading.query v.time (.touching r)).filterMap Document.edge?).map (·.key)

end View

/-- Runs a survey on a view. What the view does not know it asks for and remembers. -/
def Survey.run {α : Type} : Survey α → View → Reading (α × View)
  | done a, v => pure (a, v)
  | object r next, v =>
    match v.objects.get? r with
    | some b => (next b).run v
    | none => do
      let b ← v.askObject r
      (next b).run { v with objects := v.objects.insert r b }
  | declaration r next, v =>
    match v.declared.get? r with
    | some l => (next l).run v
    | none => do
      let l ← v.askDeclaration r
      (next l).run { v with declared := v.declared.insert r l }
  | profile r next, v =>
    match v.profiles.get? r with
    | some p => (next p).run v
    | none => do
      let p ← v.askProfile r
      (next p).run { v with profiles := v.profiles.insert r p }
  | edges r next, v =>
    match v.edges.get? r with
    | some ks => (next ks).run v
    | none => do
      let ks ← v.askEdges r
      (next ks).run { v with edges := v.edges.insert r ks }

end ClearanceGraph
