import ClearanceGraph.Decimal.Double
import ClearanceGraph.Order.Table

/-!
# JSON values — trees of scalars, arrays and objects

  An object keeps its fields as they were given, repeats included, because a
  record may not repeat a field while a free-form value may. The canonical form
  of a value has ascending fields, of a repeated one the last. Whole numbers and
  doubles are different values.
-/

namespace ClearanceGraph

/-- A JSON value. -/
inductive Json where
  | null
  | bool (b : Bool)
  | int (n : Int)
  | float (x : Double)
  | string (s : String)
  | array (items : List Json)
  | object (fields : List (String × Json))
  /-- A stretch of text that stands for no value although its form is right: a number
  beyond the doubles, a text with half a surrogate pair, a nesting too deep. It can be
  skipped, not read. -/
  | unreadable
deriving Inhabited

namespace Json

/-! ## Agreement -/

mutual
/-- Whether two values agree. Doubles agree as numbers, objects field by field. -/
def agree : Json → Json → Bool
  | null, null => true
  | bool a, bool b => a == b
  | int m, int n => m == n
  | float x, float y => x == y
  | string s, string t => s == t
  | array xs, array ys => agreeItems xs ys
  | object fs, object gs => agreeFields fs gs
  | unreadable, unreadable => true
  | _, _ => false

/-- Whether two lists of values agree. -/
def agreeItems : List Json → List Json → Bool
  | [], [] => true
  | x :: xs, y :: ys => agree x y && agreeItems xs ys
  | _, _ => false

/-- Whether two lists of fields agree, names and values, in order. -/
def agreeFields : List (String × Json) → List (String × Json) → Bool
  | [], [] => true
  | (k, x) :: fs, (l, y) :: gs => k == l && agree x y && agreeFields fs gs
  | _, _ => false
end

instance : BEq Json := ⟨agree⟩

/-! ## Readable values -/

mutual
/-- Whether every part of a value can be read, parts that are given again later
included. -/
def isReadable : Json → Bool
  | array xs => readableItems xs
  | object fs => readableFields fs
  | unreadable => false
  | _ => true

/-- Whether every item can be read. -/
def readableItems : List Json → Bool
  | [] => true
  | x :: xs => isReadable x && readableItems xs

/-- Whether the value of every field can be read. -/
def readableFields : List (String × Json) → Bool
  | [] => true
  | (_, x) :: fs => isReadable x && readableFields fs
end

/-! ## Canonical form -/

/-- Whether the names of fields ascend strictly. -/
def ascendingNames : List (String × Json) → Bool
  | [] => true
  | [_] => true
  | f :: g :: fs => compare f.1 g.1 == .lt && ascendingNames (g :: fs)

mutual
/-- Whether a value is readable and has ascending fields throughout. -/
def isCanonical : Json → Bool
  | array xs => canonicalItems xs
  | object fs => ascendingNames fs && canonicalFields fs
  | unreadable => false
  | _ => true

/-- Whether every item is canonical. -/
def canonicalItems : List Json → Bool
  | [] => true
  | x :: xs => isCanonical x && canonicalItems xs

/-- Whether the value of every field is canonical. -/
def canonicalFields : List (String × Json) → Bool
  | [] => true
  | (_, x) :: fs => isCanonical x && canonicalFields fs
end

mutual
/-- The value with ascending fields throughout; of a repeated field the last stays. -/
def canonical : Json → Json
  | array xs => array (canonicalEach xs)
  | object fs => object (canonicalInto fs Table.empty).entries
  | j => j

/-- The canonical forms of a list of values. -/
def canonicalEach : List Json → List Json
  | [] => []
  | x :: xs => canonical x :: canonicalEach xs

/-- Files the canonical forms of fields in a table, one after another. -/
def canonicalInto : List (String × Json) → Table String Json → Table String Json
  | [], t => t
  | (k, x) :: fs, t => canonicalInto fs (t.insert k (canonical x))
end

end Json

/-! ## Attributes -/

/-- A readable value in canonical form. -/
structure AttributeValue where
  json : Json
  /-- It is readable, its fields ascend. -/
  canonical : json.isCanonical = true

instance : BEq AttributeValue := ⟨fun a b => a.json == b.json⟩

/-- The attribute a value stands for. There is none where some part is unreadable, even
a part that a later one of its name replaces. -/
def AttributeValue.ofJson? (j : Json) : Option AttributeValue :=
  if h : j.isReadable = true ∧ j.canonical.isCanonical = true then
    some ⟨j.canonical, h.2⟩ else none

/-- Named values of an object or an edge. -/
abbrev Attributes := Table String AttributeValue

namespace Attributes

/-- The attributes as a JSON object. -/
def toJson (a : Attributes) : Json := .object (a.entries.map fun e => (e.1, e.2.json))

/-- Reads the attributes of a list of fields; of a repeated one the last stays. -/
def ofFields? : List (String × Json) → Attributes → Option Attributes
  | [], t => some t
  | (k, x) :: fs, t => do ofFields? fs (t.insert k (← AttributeValue.ofJson? x))

/-- Reads a JSON object as attributes. -/
def ofJson? : Json → Option Attributes
  | .object fs => ofFields? fs Table.empty
  | _ => none

end Attributes

end ClearanceGraph
