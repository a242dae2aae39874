import ClearanceGraph.Json.Basic

/-!
# Typed values from JSON

  Every decoder gives a value or nothing. A record is read from an object by
  field names, or from an array by positions. Unknown fields are passed over, a
  known field may not stand twice.

  Where a tag tells the type of what stands beside it, and has not been met yet,
  that is set aside. A value that was set aside is read a little more generously
  than one that is read in its place, but all of it has to be readable.
-/

namespace ClearanceGraph.Json

variable {α : Type}

/-! ## Scalars and lists -/

def asString? : Json → Option String
  | string s => some s
  | _ => none

def asBool? : Json → Option Bool
  | bool b => some b
  | _ => none

/-- A whole number from zero to a bound. -/
def asNat? (bound : Nat) : Json → Option Nat
  | int (.ofNat n) => if n ≤ bound then some n else none
  | _ => none

/-- The items of an array, each decoded; one bad item spoils the list. -/
def asList? (f : Json → Option α) : Json → Option (List α)
  | array xs => xs.mapM f
  | _ => none

/-- A value that may be null. -/
def asOption? (f : Json → Option α) : Json → Option (Option α)
  | null => some none
  | j => (f j).map some

/-- The JSON of a value that may be absent. -/
def ofOption (f : α → Json) : Option α → Json
  | none => null
  | some a => f a

/-! ## Records -/

/-- The fields of a record as they were found. -/
structure Fields where
  positional : Bool
  found : List (String × Json)

/-- How often a name stands among fields. -/
def occurrences (name : String) (fs : List (String × Json)) : Nat := fs.countP (·.1 == name)

/-- The fields of a record with the given names, in their order. An array may be shorter
than the record, not longer. -/
def fields (names : List String) : Json → Option Fields
  | object fs =>
    if names.all fun n => occurrences n fs ≤ 1 then some ⟨false, fs⟩ else none
  | array xs => if xs.length ≤ names.length then some ⟨true, names.zip xs⟩ else none
  | _ => none

namespace Fields

/-- The value of a field. -/
def get? (r : Fields) (name : String) : Option Json := r.found.lookup name

/-- A field that has to be present. -/
def required (r : Fields) (name : String) (f : Json → Option α) : Option α :=
  (r.get? name).bind f

/-- A field with a value of its own when it is absent. -/
def defaulted (r : Fields) (name : String) (otherwise : α) (f : Json → Option α) :
    Option α :=
  match r.get? name with
  | none => some otherwise
  | some j => f j

/-- A field that may be null, or absent from an object. -/
def nullable (r : Fields) (name : String) (f : Json → Option α) : Option (Option α) :=
  match r.get? name with
  | none => if r.positional then none else some none
  | some j => asOption? f j

end Fields

/-! ## Alternatives -/

/-- How a value reaches its reader. -/
inductive Source where
  /-- It is read where it stands. Parts that nobody asks for are passed over. -/
  | inPlace
  /-- It was set aside whole, because the tag that tells its type came later or among
  its fields, and is read afterwards. An alternative may then also be told by its
  number, and the content of one that has none may be empty braces. -/
  | setAside
deriving DecidableEq

/-- Whether a value is the content of an alternative without content. -/
def isNothing : Source → Json → Bool
  | _, null => true
  | .setAside, object [] => true
  | _, _ => false

/-- One of several named alternatives without content: its name, alone or over nothing. -/
def alternative? (s : Source) (names : List (String × α)) : Json → Option α
  | string n => names.lookup n
  | object [(n, j)] => if isNothing s j then names.lookup n else none
  | _ => none

/-- One of several named alternatives, by its name, or by its number from zero where
that is read. -/
def label? (s : Source) (names : List (String × α)) : Json → Option α
  | string n => names.lookup n
  | int (.ofNat n) => if s = .setAside then names[n]?.map (·.2) else none
  | _ => none

/-- The first of two names that stands among fields. -/
def firstOf? (name other : String) (fs : List (String × Json)) : Option String :=
  (fs.find? fun f => f.1 == name || f.1 == other).map (·.1)

/-- A value with a tag beside it: an object of both, or an array of the two. In an
object a content that stands before its tag is set aside. -/
def tagged? (s : Source) (tag content : String)
    (tags : List (String × (Source → Json → Option α))) :
    Json → Option α
  | object fs => do
    let r ← fields [tag, content] (object fs)
    let f ← r.required tag (alternative? s tags)
    if firstOf? tag content fs = some content then
      r.required content fun j => if j.isReadable then f .setAside j else none
    else r.required content (f s)
  | array [t, j] => do (← label? s tags t) s j
  | _ => none

/-- A record with its tag among its fields: an object, or an array that starts with the
tag. What is not the tag is set aside. -/
def variant? (s : Source) (tag : String) (tags : List (String × (Json → Option α))) :
    Json → Option α
  | object fs =>
    if occurrences tag fs = 1 then do
      let f ← (fs.lookup tag).bind (label? s tags)
      let others := object (fs.filter (·.1 != tag))
      if others.isReadable then f others else none
    else none
  | array (t :: xs) => do
    let f ← label? s tags t
    if (array xs).isReadable then f (array xs) else none
  | _ => none

end ClearanceGraph.Json
