/-!
# Numerals — unsigned decimal numbers as text

  Digits are read left to right. A bounded numeral is refused when its value
  passes the bound, however many leading zeros it has.
-/

namespace ClearanceGraph.Text

/-- The value of a decimal digit. -/
def digit? (c : Char) : Option Nat :=
  if '0' ≤ c ∧ c ≤ '9' then some (c.toNat - '0'.toNat) else none

/-- Whether a character is a decimal digit. -/
def isDigit (c : Char) : Bool := (digit? c).isSome

/-- The value of a run of digits, most significant first. Other characters count as
zero. -/
def digitsValue (ds : List Char) : Nat := ds.foldl (fun n c => 10 * n + (digit? c).getD 0) 0

/-- The longest run of digits at the start, of at most `most` characters, and the rest. -/
def takeDigits (most : Nat) : List Char → List Char × List Char
  | [] => ([], [])
  | c :: cs =>
    match most with
    | 0 => ([], c :: cs)
    | m + 1 => if isDigit c then let (ds, r) := takeDigits m cs; (c :: ds, r)
        else ([], c :: cs)

/-- Reads a whole text as an unsigned number of at most `bound`, with or without a
leading plus. -/
def unsigned? (bound : Nat) (s : List Char) : Option Nat :=
  let ds := match s with
    | '+' :: r => r
    | r => r
  if ds.isEmpty || !ds.all isDigit then none
  else if digitsValue ds ≤ bound then some (digitsValue ds) else none

/-- The decimal digits of a number, padded with zeros on the left to a width. -/
def padded (width n : Nat) : List Char :=
  let ds := Nat.toDigits 10 n
  List.replicate (width - ds.length) '0' ++ ds

/-- The value of a hexadecimal digit of either case. -/
def hexDigit? (c : Char) : Option Nat :=
  if '0' ≤ c ∧ c ≤ '9' then some (c.toNat - '0'.toNat)
  else if 'a' ≤ c ∧ c ≤ 'f' then some (c.toNat - 'a'.toNat + 10)
  else if 'A' ≤ c ∧ c ≤ 'F' then some (c.toNat - 'A'.toNat + 10)
  else none

/-- The lower-case hexadecimal digit of a number below sixteen. -/
def hexDigit (n : Nat) : Char :=
  if n < 10 then Char.ofNat ('0'.toNat + n) else Char.ofNat ('a'.toNat + (n - 10))

/-- Two hexadecimal digits for each byte. -/
def hexBytes (bs : List UInt8) : List Char :=
  bs.flatMap fun b => [hexDigit (b.toNat / 16), hexDigit (b.toNat % 16)]

end ClearanceGraph.Text
