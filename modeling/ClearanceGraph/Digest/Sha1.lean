/-!
# SHA-1 — the digest behind name-based identifiers

  The message is padded to whole blocks of 64 bytes with its length in bits at
  the end. Each block is stretched to eighty words, which are mixed into five.
-/

namespace ClearanceGraph.Digest.Sha1

/-- The five words of the state. -/
structure State where
  a : UInt32
  b : UInt32
  c : UInt32
  d : UInt32
  e : UInt32

/-- The state before the first block. -/
def initial : State := ⟨0x67452301, 0xEFCDAB89, 0x98BADCFE, 0x10325476, 0xC3D2E1F0⟩

/-- Rotates a word to the left. -/
def rotate (x : UInt32) (n : UInt32) : UInt32 := (x <<< n) ||| (x >>> (32 - n))

/-- The bytes of a number, the highest first. -/
def bigEndian (width n : Nat) : List UInt8 :=
  (List.range width).map fun i => (n >>> (8 * (width - 1 - i))).toUInt8

/-- The message with its padding. -/
def pad (bs : List UInt8) : List UInt8 :=
  bs ++ 0x80 :: List.replicate ((119 - bs.length % 64) % 64) 0 ++ bigEndian 8
    (8 * bs.length)

/-- The words of a block, from bytes with the highest first. -/
def words : List UInt8 → List UInt32
  | a :: b :: c :: d :: r =>
    ((a.toUInt32 <<< 24) ||| (b.toUInt32 <<< 16) ||| (c.toUInt32 <<< 8) ||| d.toUInt32) ::
      words r
  | _ => []

/-- Appends words to a schedule: each from the ones 3, 8, 14 and 16 before it. -/
def stretch : Nat → Array UInt32 → Array UInt32
  | 0, w => w
  | n + 1, w =>
    let back (k : Nat) : UInt32 := w.getD (w.size - k) 0
    stretch n (w.push (rotate (back 3 ^^^ back 8 ^^^ back 14 ^^^ back 16) 1))

/-- The function and the constant of a step. -/
def choose (i : Nat) (s : State) : UInt32 × UInt32 :=
  if i < 20 then ((s.b &&& s.c) ||| (~~~s.b &&& s.d), 0x5A827999)
  else if i < 40 then (s.b ^^^ s.c ^^^ s.d, 0x6ED9EBA1)
  else if i < 60 then ((s.b &&& s.c) ||| (s.b &&& s.d) ||| (s.c &&& s.d), 0x8F1BBCDC)
  else (s.b ^^^ s.c ^^^ s.d, 0xCA62C1D6)

/-- One step of the mixing. -/
def step (s : State) (i : Nat) (w : UInt32) : State :=
  let (f, k) := choose i s
  ⟨rotate s.a 5 + f + s.e + k + w, s.a, rotate s.b 30, s.c, s.d⟩

/-- The state after a block. -/
def absorb (s : State) (block : List UInt8) : State :=
  let w := (stretch 64 (words block).toArray).toList
  let t := (w.zipIdx).foldl (fun t p => step t p.2 p.1) s
  ⟨s.a + t.a, s.b + t.b, s.c + t.c, s.d + t.d, s.e + t.e⟩

/-- The state after the first blocks of a padded message. -/
def absorbAll : Nat → State → List UInt8 → State
  | 0, s, _ => s
  | n + 1, s, bs => absorbAll n (absorb s (bs.take 64)) (bs.drop 64)

/-- The twenty bytes of the digest of a message. -/
def hash (bs : List UInt8) : List UInt8 :=
  let m := pad bs
  let s := absorbAll (m.length / 64) initial m
  [s.a, s.b, s.c, s.d, s.e].flatMap fun w => bigEndian 4 w.toNat

end ClearanceGraph.Digest.Sha1
