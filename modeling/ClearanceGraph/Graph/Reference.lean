/-!
# References — names of objects

  A reference is the object's type and its natural key with a bar between them.
  The key may have bars of its own; the first bar divides.
-/

open Std

namespace ClearanceGraph

/-- The name of an object. -/
structure Reference where
  text : String
deriving DecidableEq, Inhabited

namespace Reference

/-- References are ordered as texts, character by character. -/
instance : Ord Reference := ⟨compareOn text⟩

instance : TransOrd Reference := inferInstanceAs (TransCmp (compareOn text))

instance : LawfulEqOrd Reference where
  eq_of_compare {a b} h := by
    change compare a.text b.text = .eq at h
    cases a; cases b
    simpa using h

/-- The characters before the first bar and those behind it; nothing behind if there is
no bar. -/
def splitBar : List Char → List Char × Option (List Char)
  | [] => ([], none)
  | c :: cs => if c = '|' then ([], some cs) else let (a, b) := splitBar cs; (c :: a, b)

/-- The type of the object. -/
def objectType (r : Reference) : String := String.ofList (splitBar r.text.toList).1

/-- The natural key; empty where there is no bar. -/
def naturalKey (r : Reference) : String :=
  String.ofList ((splitBar r.text.toList).2.getD [])

end Reference

/-! ## Names of types and relations -/

/-- Whether a character is an upper-case letter from A to Z. -/
def isUpper (c : Char) : Bool := 'A' ≤ c && c ≤ 'Z'

/-- Whether a character is a lower-case letter from a to z. -/
def isLower (c : Char) : Bool := 'a' ≤ c && c ≤ 'z'

/-- Whether a character is a digit from 0 to 9 or an underscore. -/
def isDigitOrLine (c : Char) : Bool := ('0' ≤ c && c ≤ '9') || c == '_'

/-- A type starts with an upper-case letter and goes on with letters, digits and
underscores. -/
def isTypeName : List Char → Bool
  | [] => false
  | c :: cs => isUpper c && cs.all fun c => isUpper c || isLower c || isDigitOrLine c

/-- A relation starts with a lower-case letter and goes on with those, digits and
underscores. -/
def isRelationName : List Char → Bool
  | [] => false
  | c :: cs => isLower c && cs.all fun c => isLower c || isDigitOrLine c

end ClearanceGraph
