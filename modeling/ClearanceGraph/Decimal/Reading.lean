import ClearanceGraph.Decimal.Double

/-!
# Reading decimals — from digits to a double

  The significand keeps as many leading digits as fit 64 bits; the rest only
  move the exponent. Significand and power of ten are then combined by one
  rounded product or quotient for each step of 308 decades, so the result can
  differ in the last bit from the nearest double.
-/

namespace ClearanceGraph.Decimal

/-- The digits of a number read so far, as `value · 10 ^ exponent`. -/
structure Significand where
  /-- The digits taken, a number below `2 ^ 64`. -/
  value : Nat
  /-- The power of ten it is to be multiplied by. -/
  exponent : Int
  /-- No more digits are taken on this side of the point. -/
  full : Bool

namespace Significand

def zero : Significand := ⟨0, 0, false⟩

/-- Takes a digit before the point: once the significand is full, a digit is a power of
ten. -/
def whole (s : Significand) (d : Nat) : Significand :=
  let n := 10 * s.value + d
  if s.full || UInt64.size ≤ n then ⟨s.value, s.exponent + 1, true⟩
  else ⟨n, s.exponent, false⟩

/-- Takes a digit after the point: once the significand is full, a digit is dropped. -/
def fraction (s : Significand) (d : Nat) : Significand :=
  let n := 10 * s.value + d
  if s.full || UInt64.size ≤ n then ⟨s.value, s.exponent, true⟩
  else ⟨n, s.exponent - 1, false⟩

end Significand

/-- The power of ten as a double. -/
def power (n : Nat) : Float := Float.ofScientific 1 false n

/-- Multiplies or divides by a power of ten, 308 decades at a time, through at most
`steps` steps. A product that is no longer finite is no number. -/
def scale (f : Float) (e : Int) : Nat → Option Float
  | 0 => some f
  | steps + 1 =>
    if e.natAbs ≤ 308 then
      if 0 ≤ e then
        let g := f * power e.natAbs
        if g.isInf then none else some g
      else some (f / power e.natAbs)
    else if f == 0.0 then some f
    else if 0 ≤ e then none
    else scale (f / power 308) (e + 308) steps

/-- The double of `value · 10 ^ exponent` with a sign, if it is finite. -/
def toDouble? (negative : Bool) (value : Nat) (exponent : Int) : Option Double :=
  (scale value.toUInt64.toFloat exponent (exponent.natAbs / 308 + 1)).map fun f =>
    .ofFloat (if negative then -f else f)

end ClearanceGraph.Decimal
