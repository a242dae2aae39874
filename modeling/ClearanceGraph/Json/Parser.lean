import ClearanceGraph.Decimal.Reading
import ClearanceGraph.Json.Basic
import ClearanceGraph.Text.Numeral

/-!
# Reading JSON text

  Each reader takes the remaining characters and gives a value with the rest
  behind it. A text of right form whose value does not exist (a number beyond
  the doubles, half a surrogate pair, a nesting too deep) reads as `unreadable`:
  the reader of a record may pass over it where it passes over the field.
-/

namespace ClearanceGraph.Json

open Text

def isSpace (c : Char) : Bool := c = ' ' || c = '\n' || c = '\t' || c = '\r'

/-- The text without the blanks at its start. -/
def skipSpace (cs : List Char) : List Char := cs.dropWhile isSpace

/-! ## Texts -/

/-- One character of a text as written: a character, half a surrogate pair, or none at
all. -/
inductive Unit16 where
  | char (c : Char)
  | high (n : Nat)
  | low (n : Nat)

/-- The meaning of a sixteen-bit escape. -/
def Unit16.ofNat (n : Nat) : Unit16 :=
  if 0xD800 ≤ n ∧ n < 0xDC00 then .high n
  else if 0xDC00 ≤ n ∧ n < 0xE000 then .low n
  else .char (Char.ofNat n)

/-- The number of four hexadecimal digits. -/
def hex4? (a b c d : Char) : Option Nat := do
  return (← hexDigit? a) * 4096 + (← hexDigit? b) * 256 + (← hexDigit? c) * 16 +
    (← hexDigit? d)

/-- The meaning of an escape of one letter. -/
def simpleEscape? (c : Char) : Option Char :=
  if c = '"' ∨ c = '\\' ∨ c = '/' then some c
  else if c = 'b' then some (Char.ofNat 0x08)
  else if c = 'f' then some (Char.ofNat 0x0C)
  else if c = 'n' then some '\n'
  else if c = 'r' then some '\r'
  else if c = 't' then some '\t'
  else none

/-- Splits the inside of a text, up to the closing quote, into its units. -/
def units? : List Char → Option (List Unit16 × List Char)
  | [] => none
  | '"' :: r => some ([], r)
  | '\\' :: 'u' :: a :: b :: c :: d :: r => do
    let n ← hex4? a b c d
    let (us, r') ← units? r
    return (.ofNat n :: us, r')
  | '\\' :: c :: r => do
    let e ← simpleEscape? c
    let (us, r') ← units? r
    return (.char e :: us, r')
  | c :: r =>
    if c.toNat < 0x20 ∨ c = '\\' then none
    else do
      let (us, r') ← units? r
      return (.char c :: us, r')

/-- Joins surrogate pairs. A half that stands alone makes the whole text unreadable. -/
def joinUnits? : List Unit16 → Option (List Char)
  | [] => some []
  | .char c :: us => (joinUnits? us).map (c :: ·)
  | .high h :: .low l :: us =>
    (joinUnits? us).map (Char.ofNat (0x10000 + (h - 0xD800) * 0x400 + (l - 0xDC00)) :: ·)
  | _ => none

/-- Reads the inside of a text; the inner result is missing where the text is
unreadable. -/
def text? (cs : List Char) : Option (Option String × List Char) := do
  let (us, r) ← units? cs
  return ((joinUnits? us).map String.ofList, r)

/-! ## Numbers -/

/-- The value of a number with a point or an exponent. -/
def ofScaled (negative : Bool) (value : Nat) (exponent : Int) : Json :=
  match Decimal.toDouble? negative value exponent with
  | some x => .float x
  | none => .unreadable

/-- The value of a number with a written exponent. An exponent beyond 31 bits stands for
zero if it is negative or the significand is zero. -/
def withExponent (negative : Bool) (s : Decimal.Significand) (down : Bool) (e : Nat) :
    Json :=
  if e < UInt32.size / 2 then ofScaled negative s.value
    (if down then s.exponent - e else s.exponent + e)
  else if s.value = 0 ∨ down then ofScaled negative 0 0
  else .unreadable

/-- The value of a number without point and exponent. -/
def ofWhole (negative : Bool) (s : Decimal.Significand) : Json :=
  if s.full then ofScaled negative s.value s.exponent
  else if !negative then .int s.value
  else if s.value = 0 ∨ UInt64.size / 2 < s.value then ofScaled true s.value 0
  else .int (-s.value)

/-- The digit values of a run of digits. -/
def digitValues (ds : List Char) : List Nat := ds.map fun c => (digit? c).getD 0

/-- Reads an exponent after its mark, if there is one. -/
def exponent? (negative : Bool) (s : Decimal.Significand) (other : Json) :
    List Char → Option (Json × List Char)
  | 'e' :: r | 'E' :: r =>
    let (down, r) := match r with
      | '-' :: r => (true, r)
      | '+' :: r => (false, r)
      | r => (false, r)
    let (ds, r) := takeDigits r.length r
    if ds.isEmpty then none else some (withExponent negative s down (digitsValue ds), r)
  | r => some (other, r)

/-- Reads a fraction after the point, if there is one, and an exponent. -/
def fraction? (negative : Bool) (s : Decimal.Significand) :
    List Char → Option (Json × List Char)
  | '.' :: r =>
    let (ds, r) := takeDigits r.length r
    if ds.isEmpty then none
    else
      let s := (digitValues ds).foldl .fraction ⟨s.value, s.exponent, false⟩
      exponent? negative s (ofScaled negative s.value s.exponent) r
  | r => exponent? negative s (ofWhole negative s) r

/-- Reads a number without its sign. A zero is not followed by another digit. -/
def number? (negative : Bool) (cs : List Char) : Option (Json × List Char) :=
  match takeDigits cs.length cs with
  | ([], _) => none
  | ('0' :: _ :: _, _) => none
  | (ds, r) => fraction? negative ((digitValues ds).foldl .whole .zero) r

/-! ## Values -/

/-- The deepest nesting of arrays and objects that can be read. -/
def nestingBound : Nat := 127

def word? (w : List Char) (j : Json) (cs : List Char) : Option (Json × List Char) :=
  if w.isPrefixOf cs then some (j, cs.drop w.length) else none

/-- A container at a given remaining depth. -/
def atDepth (depth : Nat) (j : Json) : Json := if depth = 0 then .unreadable else j

mutual
/-- Reads a value. The first number bounds the steps, the second the nesting. -/
def value? : Nat → Nat → List Char → Option (Json × List Char)
  | 0, _, _ => none
  | fuel + 1, depth, cs =>
    match skipSpace cs with
    | 'n' :: r => word? ['u', 'l', 'l'] .null r
    | 't' :: r => word? ['r', 'u', 'e'] (.bool true) r
    | 'f' :: r => word? ['a', 'l', 's', 'e'] (.bool false) r
    | '"' :: r => do
      let (s, r) ← text? r
      return (s.elim .unreadable .string, r)
    | '[' :: r =>
      match skipSpace r with
      | ']' :: r => some (atDepth depth (.array []), r)
      | r => do
        let (xs, r) ← items? fuel (depth - 1) r
        return (atDepth depth (.array xs), r)
    | '\x7b' :: r =>
      match skipSpace r with
      | '\x7d' :: r => some (atDepth depth (.object []), r)
      | r => do
        let (fs, r) ← fields? fuel (depth - 1) r
        return (atDepth depth (fs.elim .unreadable .object), r)
    | '-' :: r => number? true r
    | r => number? false r

/-- Reads the items of an array and its closing bracket. -/
def items? : Nat → Nat → List Char → Option (List Json × List Char)
  | 0, _, _ => none
  | fuel + 1, depth, cs => do
    let (x, r) ← value? fuel depth cs
    match skipSpace r with
    | ',' :: r =>
      let (xs, r) ← items? fuel depth r
      return (x :: xs, r)
    | ']' :: r => return ([x], r)
    | _ => none

/-- Reads the fields of an object and its closing brace; none inside if a name is
unreadable. -/
def fields? : Nat → Nat → List Char → Option (Option (List (String × Json)) × List Char)
  | 0, _, _ => none
  | fuel + 1, depth, cs => do
    let r ← match skipSpace cs with
      | '"' :: r => some r
      | _ => none
    let (k, r) ← text? r
    let r ← match skipSpace r with
      | ':' :: r => some r
      | _ => none
    let (x, r) ← value? fuel depth r
    match skipSpace r with
    | ',' :: r =>
      let (fs, r) ← fields? fuel depth r
      return (k.bind fun k => fs.map ((k, x) :: ·), r)
    | '\x7d' :: r => return (k.map fun k => [(k, x)], r)
    | _ => none
end

/-- Reads a whole text as one value. -/
def parse? (s : String) : Option Json :=
  match value? (2 * s.toList.length + 2) nestingBound s.toList with
  | some (j, r) => if (skipSpace r).isEmpty then some j else none
  | none => none

end ClearanceGraph.Json
