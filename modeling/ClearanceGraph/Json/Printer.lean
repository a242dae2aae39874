import ClearanceGraph.Decimal.Shortest
import ClearanceGraph.Json.Basic
import ClearanceGraph.Text.Numeral

/-!
# Compact JSON text

  No blanks; fields in the order in which the value has them. In texts a quote,
  a backslash and the control characters are escaped and nothing else. Doubles
  are written with the fewest digits that read back and always with a point or
  an exponent.
-/

namespace ClearanceGraph.Json

/-- Doubles of a decimal exponent from -5 to 15 are written positionally; a large one
keeps the plus sign of its exponent. -/
def numberLayout : Decimal.Layout := ⟨-5, 16, ['+']⟩

/-- The text of a double. -/
def printDouble (x : Double) : List Char :=
  let digits := if x.isZero then ['0', '.', '0']
    else Decimal.render numberLayout (Decimal.shortest x.magnitude)
  if x.isNegative then '-' :: digits else digits

/-- The text of a whole number. -/
def printInt : Int → List Char
  | .ofNat n => Nat.toDigits 10 n
  | .negSucc n => '-' :: Nat.toDigits 10 (n + 1)

/-- One character inside a text. -/
def escape (c : Char) : List Char :=
  if c = '"' then ['\\', '"']
  else if c = '\\' then ['\\', '\\']
  else if c = '\n' then ['\\', 'n']
  else if c = '\r' then ['\\', 'r']
  else if c = '\t' then ['\\', 't']
  else if c = Char.ofNat 0x08 then ['\\', 'b']
  else if c = Char.ofNat 0x0C then ['\\', 'f']
  else if c.toNat < 0x20 then
    ['\\', 'u', '0', '0', Text.hexDigit (c.toNat / 16), Text.hexDigit (c.toNat % 16)]
  else [c]

def printString (s : List Char) : List Char := '"' :: s.flatMap escape ++ ['"']

mutual
/-- The text of a value. -/
def printChars : Json → List Char
  | null => ['n', 'u', 'l', 'l']
  | bool true => ['t', 'r', 'u', 'e']
  | bool false => ['f', 'a', 'l', 's', 'e']
  | int n => printInt n
  | float x => printDouble x
  | string s => printString s.toList
  | array [] => ['[', ']']
  | array (x :: xs) => '[' :: printChars x ++ printItems xs
  | object [] => ['\x7b', '\x7d']
  | object ((k, x) :: fs) => '\x7b' :: printString k.toList ++ ':' :: printChars x ++
      printFields fs
  | unreadable => ['n', 'u', 'l', 'l']

/-- The items after the first, and the closing bracket. -/
def printItems : List Json → List Char
  | [] => [']']
  | x :: xs => ',' :: printChars x ++ printItems xs

/-- The fields after the first, and the closing brace. -/
def printFields : List (String × Json) → List Char
  | [] => ['\x7d']
  | (k, x) :: fs => ',' :: printString k.toList ++ ':' :: printChars x ++ printFields fs
end

/-- The compact text of a value. -/
def print (j : Json) : String := String.ofList (printChars j)

end ClearanceGraph.Json
