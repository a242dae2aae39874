import ClearanceGraph.Clearance.Region

/-!
# Settling — from inherited levels to profiles and deltas

  Each object gets the profile it should have; where the stored one differs, it
  is written, and where the level differs, a delta tells so. An object that is
  gone loses its profile.
-/

namespace ClearanceGraph.Settle

/-- The profile that an object should have. -/
def desired (default : Level) (r : Reference) (declared : Option Level)
    (inherited : Option (Level × List Inheritance)) : Profile :=
  match declared, inherited with
  | some l, _ => .declared r l
  | none, some (l, is) => if default < l then .inherited r l is else .empty r default
  | none, none => .empty r default

/-- The kind of change towards a profile. -/
def kindTowards (p : Profile) : DeltaKind := if p.isDeclared then .declared else .inherited

/-- What to write and what to tell when an object that exists should have a profile. -/
def change (stored : Option Profile) (p : Profile) : Option Operation × Option Delta :=
  match stored with
  | none => (some (.put (.profile p)), some ⟨p.reference, none, p.level, .created⟩)
  | some old =>
    if old = p then (none, none)
    else if old.level = p.level then (some (.put (.profile p)), none)
    else (some (.put (.profile p)),
      some ⟨p.reference, some old.level, p.level, kindTowards p⟩)

/-- What to write and what to tell when an object is gone. -/
def removal (default : Level) (r : Reference) (stored : Option Profile) :
    Option Operation × Option Delta :=
  match stored with
  | none => (none, none)
  | some old => (some (.delete (.profile r)), some ⟨r, some old.level, default, .retracted⟩)

/-- What to write and what to tell of one object. -/
def settleOne (default : Level) (inherited : Inherited) (r : Reference) :
    Survey (Option Operation × Option Delta) := do
  let stored ← Survey.storedProfile r
  if ← Survey.isObject r then
    let declared ← Survey.declaredLevel r
    return change stored (desired default r declared (inherited.get? r))
  else return removal default r stored

/-- What to write and what to tell of the objects of a list. -/
def settleAll (default : Level) (inherited : Inherited) :
    List Reference → Survey (List Operation × List Delta)
  | [] => return ([], [])
  | r :: rs => do
    let (op, d) ← settleOne default inherited r
    let (ops, ds) ← settleAll default inherited rs
    return (op.toList ++ ops, d.toList ++ ds)

/-! ## Summaries over several instants -/

/-- A later delta of an object on top of an earlier one: the first old level and the
last new level stay; a creation stays one unless the object goes. -/
def merge (first later : Delta) : Delta :=
  { first with
    newLevel := later.newLevel
    kind := if first.kind ≠ .created ∨ later.kind = .retracted then later.kind
      else first.kind }

/-- One delta per object. -/
abbrev Summary := Table Reference Delta

/-- Adds a delta to a summary. -/
def addDelta (s : Summary) (d : Delta) : Summary :=
  s.insert d.reference (match s.get? d.reference with
    | none => d
    | some first => merge first d)

/-- Adds the deltas of a list to a summary, in order. -/
def fold (s : Summary) (ds : List Delta) : Summary := ds.foldl addDelta s

end ClearanceGraph.Settle
