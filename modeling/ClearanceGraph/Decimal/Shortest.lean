import ClearanceGraph.Decimal.Double

/-!
# Shortest decimals — the fewest digits that read back to a double

  A double stands for the interval of reals that round to it. Of the decimals in
  the interval, those with the fewest digits are taken, and of these the one
  nearest to the double. The search goes from coarse to fine grids: if a grid has
  a point in the interval, one of the double's two neighbours on it is such a point.
-/

namespace ClearanceGraph.Decimal

/-- The number `digits · 10 ^ exponent`. -/
structure Scaled where
  /-- The digits, as a number. -/
  digits : Nat
  exponent : Int
deriving DecidableEq, Repr

/-- A number times a power of ten; a negative exponent counts as zero. -/
def tens (n : Nat) (e : Int) : Nat := n * Nat.pow 10 e.toNat

/-- A number times a power of two; a negative exponent counts as zero. -/
def twos (n : Nat) (e : Int) : Nat := n <<< e.toNat

/-- Compares `a · 10 ^ i` with `n · 2 ^ j`, exactly: each side takes the positive
exponents of its own and the negative ones of the other. -/
def compareScaled (a : Nat) (i : Int) (n : Nat) (j : Int) : Ordering :=
  compare (twos (tens a i) (-j)) (tens (twos n j) (-i))

/-- Whether a decimal lies among the reals that round to `x`: halfway to either neighbour,
both ends included exactly when the significand is even. -/
def readsBack (x : Double.Magnitude) (d : Scaled) : Bool :=
  let low := if x.narrowBelow then 4 * x.m - 1 else 4 * x.m - 2
  let closed := x.m % 2 == 0
  let below := compareScaled d.digits d.exponent low (x.q - 2)
  let above := compareScaled d.digits d.exponent (4 * x.m + 2) (x.q - 2)
  (below == .gt || (closed && below == .eq)) && (above == .lt || (closed && above == .eq))

/-- The least `k` with `m · 2 ^ q < 10 ^ k`, searched upwards through `tries`
candidates. -/
def leastScale (m : Nat) (q : Int) : Nat → Int → Int
  | 0, k => k
  | tries + 1, k => if compareScaled 1 k m q == .gt then k else leastScale m q tries (k + 1)

/-- The whole part of `m · 2 ^ q / 10 ^ g`. -/
def wholePart (m : Nat) (q g : Int) : Nat :=
  tens (twos m q) (-g) / twos (tens 1 g) (-q)

/-- The nearer of two neighbouring decimals on one grid that both read back, the even
one on a tie. -/
def nearer (x : Double.Magnitude) (d : Scaled) : Scaled :=
  let up : Scaled := ⟨d.digits + 1, d.exponent⟩
  match compareScaled (2 * d.digits + 1) d.exponent (2 * x.m) x.q with
  | .gt => d
  | .lt => up
  | .eq => if d.digits % 2 == 0 then d else up

/-- The decimal of the grid `10 ^ g` that reads back and is nearest to `x`, if there is
one. -/
def onGrid? (x : Double.Magnitude) (g : Int) : Option Scaled :=
  let d : Scaled := ⟨wholePart x.m x.q g, g⟩
  let up : Scaled := ⟨d.digits + 1, g⟩
  match readsBack x d, readsBack x up with
  | true, true => some (nearer x d)
  | true, false => some d
  | false, true => some up
  | false, false => none

/-- Moves trailing zeros of the digits into the exponent, at most `tries` of them. -/
def strip : Nat → Scaled → Scaled
  | 0, d => d
  | tries + 1, d =>
    if d.digits ≠ 0 ∧ d.digits % 10 = 0 then
      strip tries ⟨d.digits / 10, d.exponent + 1⟩ else d

/-- The shortest decimal that reads back to a positive number. -/
def shortest (x : Double.Magnitude) : Scaled :=
  let start : Int := ((x.q + (Nat.log2 x.m : Nat)) * 30103).fdiv 100000 - 2
  let scale := leastScale x.m x.q 8 start
  let found := (List.range 17).findSome? fun (n : Nat) => onGrid? x (scale - 1 - n)
  strip 20 (found.getD ⟨twos x.m x.q * Nat.pow 5 (-x.q).toNat, min x.q 0⟩)

/-- How decimals are laid out. -/
structure Layout where
  /-- Leading digits of this decimal exponent or above are written positionally, -/
  positionalFrom : Int
  /-- up to this exponent, exclusive. -/
  positionalBelow : Int
  exponentPlus : List Char

/-- The text of a decimal exponent. -/
def exponentText (l : Layout) (e : Int) : List Char :=
  if e < 0 then '-' :: Nat.toDigits 10 e.natAbs else l.exponentPlus ++
    Nat.toDigits 10 e.natAbs

/-- Lays out a decimal; positional texts always have a point. -/
def render (l : Layout) (d : Scaled) : List Char :=
  let ds := Nat.toDigits 10 d.digits
  let lead : Int := d.exponent + (ds.length : Nat) - 1
  if l.positionalFrom ≤ lead ∧ lead < l.positionalBelow then
    if 0 ≤ d.exponent then ds ++ List.replicate d.exponent.toNat '0' ++ ['.', '0']
    else if 0 ≤ lead then
      ds.take (lead.toNat + 1) ++ '.' :: ds.drop (lead.toNat + 1)
    else '0' :: '.' :: List.replicate (-lead - 1).toNat '0' ++ ds
  else
    match ds with
    | [c] => c :: 'e' :: exponentText l lead
    | c :: cs => c :: '.' :: cs ++ 'e' :: exponentText l lead
    | [] => []

end ClearanceGraph.Decimal
