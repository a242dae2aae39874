/-!
# Doubles — binary numbers of 64 bits, by their bits

  A double is kept as its bits, so that equal bits are equal values in the
  logic. As numbers, the two zeros agree although their bits differ.
-/

namespace ClearanceGraph

/-- A finite double, by its bits. -/
structure Double where
  /-- Sign, exponent and fraction. -/
  bits : UInt64
deriving DecidableEq, Inhabited

namespace Double

/-- The double of a machine number. -/
def ofFloat (f : Float) : Double := ⟨f.toBits⟩

/-- Whether the sign bit is set. -/
def isNegative (d : Double) : Bool := d.bits >>> 63 != 0

/-- Whether the number is zero, of either sign. -/
def isZero (d : Double) : Bool := d.bits &&& 0x7FFFFFFFFFFFFFFF == 0

/-- Doubles agree when they are the same number. -/
instance : BEq Double := ⟨fun a b => a.bits == b.bits || (a.isZero && b.isZero)⟩

/-- A positive number `m · 2 ^ q`, and whether the gap below it is half the gap above. -/
structure Magnitude where
  m : Nat
  q : Int
  /-- At a power of two the neighbour below is half as far away as the one above. -/
  narrowBelow : Bool

/-- The absolute value of a finite double. -/
def magnitude (d : Double) : Magnitude :=
  let e := ((d.bits >>> 52) &&& 0x7FF).toNat
  let f := (d.bits &&& 0xFFFFFFFFFFFFF).toNat
  if e == 0 then ⟨f, -1074, false⟩
  else ⟨0x10000000000000 + f, (e : Int) - 1075, f == 0 && e > 1⟩

end Double

end ClearanceGraph
