import ClearanceGraph.Digest.Sha1
import ClearanceGraph.Text.Numeral

/-!
# UUIDs — identifiers of sixteen bytes

  A name-based identifier is the SHA-1 digest of a namespace and a name, cut to
  sixteen bytes, with the version five and the variant set. The written form has
  hyphens; three more forms are read.
-/

namespace ClearanceGraph

/-- The number of identifiers, `2 ^ 128`. -/
def Uuid.size : Nat := 1 <<< 128

/-- An identifier, by its number below `2 ^ 128`. -/
structure Uuid where
  /-- The sixteen bytes as a number, the first byte highest. -/
  number : Nat
  /-- It has 128 bits. -/
  bounded : number < Uuid.size
deriving DecidableEq

namespace Uuid

open Text

/-- The number of bytes, the first one highest. -/
def bytesValue (bs : List UInt8) : Nat := bs.foldl (fun n b => 256 * n + b.toNat) 0

/-- The identifier of sixteen bytes; further ones are cut off. -/
def ofBytes (bs : List UInt8) : Uuid :=
  ⟨bytesValue bs % size, Nat.mod_lt _ (by decide)⟩

def bytes (u : Uuid) : List UInt8 := Digest.Sha1.bigEndian 16 u.number

/-- Sets the version in the seventh byte and the variant in the ninth. -/
def mark (bs : List UInt8) : List UInt8 :=
  bs.zipIdx.map fun (b, i) =>
    if i = 6 then (b &&& 0x0F) ||| 0x50 else if i = 8 then (b &&& 0x3F) ||| 0x80 else b

/-- The identifier of a name in a namespace. -/
def ofName (space : Uuid) (name : String) : Uuid :=
  ofBytes (mark ((Digest.Sha1.hash (space.bytes ++ name.toUTF8.toList)).take 16))

/-- The lower-case hexadecimal digits of a number, padded with zeros to a width. -/
def hexText : Nat → Nat → List Char
  | 0, _ => []
  | width + 1, n => hexText width (n / 16) ++ [hexDigit (n % 16)]

/-- The written form: groups of 8, 4, 4, 4 and 12 digits with hyphens between them. -/
def toText (u : Uuid) : String :=
  let ds := hexText 32 u.number
  String.ofList (ds.take 8 ++ '-' :: (ds.drop 8).take 4 ++ '-' :: (ds.drop 12).take 4 ++
    '-' :: (ds.drop 16).take 4 ++ '-' :: ds.drop 20)

def ofDigits? (ds : List Char) : Option Uuid :=
  if ds.length = 32 then do
    let n := (← ds.mapM hexDigit?).foldl (fun n d => 16 * n + d) 0
    if h : n < size then some ⟨n, h⟩ else none
  else none

/-- Reads groups of 8, 4, 4, 4 and 12 digits with hyphens between them. -/
def ofGroups? (cs : List Char) : Option Uuid :=
  if cs.length = 36 ∧ [8, 13, 18, 23].all (fun i => cs[i]? == some '-') then
    ofDigits? (cs.take 8 ++ (cs.drop 9).take 4 ++ (cs.drop 14).take 4 ++
      (cs.drop 19).take 4 ++ cs.drop 24)
  else none

/-- The mark of an identifier that is written as a name, in lower case. -/
def nameMark : List Char := ['u', 'r', 'n', ':', 'u', 'u', 'i', 'd', ':']

/-- Reads an identifier: 32 digits, or groups, bare, in braces or after the mark of a
name in either case. -/
def ofText? (s : String) : Option Uuid :=
  let cs := s.toList
  if cs.length = 32 then ofDigits? cs
  else if cs.length = 36 then ofGroups? cs
  else if cs.length = 38 then
    if cs.head? = some '\x7b' ∧ cs.getLast? = some '\x7d' then
      ofGroups? (cs.drop 1).dropLast
    else none
  else if (cs.take 9).map Char.toLower = nameMark then ofGroups? (cs.drop 9)
  else none

end Uuid

end ClearanceGraph
