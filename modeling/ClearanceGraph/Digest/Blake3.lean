/-!
# BLAKE3 — the content digest

  A message is cut into chunks of 1024 bytes and a chunk into blocks of 64. Each
  chunk chains its blocks; the chunks are the leaves of a binary tree whose left
  part is the largest power of two of chunks that leaves something for the
  right. The digest is the first 32 bytes of the root.
-/

namespace ClearanceGraph.Digest.Blake3

abbrev Block := Vector UInt32 16

/-- Eight words that chain one compression to the next. -/
abbrev Chain := Vector UInt32 8

def initial : Chain :=
  #v[0x6A09E667, 0xBB67AE85, 0x3C6EF372, 0xA54FF53A, 0x510E527F, 0x9B05688C,
    0x1F83D9AB, 0x5BE0CD19]

/-- Marks the first block of a chunk. -/
def chunkStart : UInt32 := 1

/-- Marks the last block of a chunk. -/
def chunkEnd : UInt32 := 2

/-- Marks a node of the tree above the chunks. -/
def parent : UInt32 := 4

/-- Marks the root of the tree. -/
def root : UInt32 := 8

/-- Rotates a word to the right. -/
def rotate (x : UInt32) (n : UInt32) : UInt32 := (x >>> n) ||| (x <<< (32 - n))

/-- Mixes two words of a message into four words of the state. -/
def mix (s : Block) (a b c d : Fin 16) (x y : UInt32) : Block :=
  let s := s.set a (s[a] + s[b] + x)
  let s := s.set d (rotate (s[d] ^^^ s[a]) 16)
  let s := s.set c (s[c] + s[d])
  let s := s.set b (rotate (s[b] ^^^ s[c]) 12)
  let s := s.set a (s[a] + s[b] + y)
  let s := s.set d (rotate (s[d] ^^^ s[a]) 8)
  let s := s.set c (s[c] + s[d])
  s.set b (rotate (s[b] ^^^ s[c]) 7)

/-- One round: the columns of the state, then its diagonals. -/
def round (s m : Block) : Block :=
  let s := mix s 0 4 8 12 m[0] m[1]
  let s := mix s 1 5 9 13 m[2] m[3]
  let s := mix s 2 6 10 14 m[4] m[5]
  let s := mix s 3 7 11 15 m[6] m[7]
  let s := mix s 0 5 10 15 m[8] m[9]
  let s := mix s 1 6 11 12 m[10] m[11]
  let s := mix s 2 7 8 13 m[12] m[13]
  mix s 3 4 9 14 m[14] m[15]

/-- The order of the words of a message in the next round. -/
def permute (m : Block) : Block :=
  #v[m[2], m[6], m[3], m[10], m[7], m[0], m[4], m[13], m[1], m[11], m[12], m[5],
    m[9], m[14], m[15], m[8]]

/-- A number of rounds, the message permuted between them. -/
def rounds : Nat → Block → Block → Block
  | 0, s, _ => s
  | n + 1, s, m => rounds n (round s m) (permute m)

/-- One compression, before its result is cut to a chain or to output words. -/
structure Node where
  chain : Chain
  block : Block
  counter : UInt64
  /-- The number of bytes of the block that are in use. -/
  length : UInt32
  flags : UInt32

/-- The chaining value that a compression gives. -/
def Node.compress (n : Node) : Chain :=
  let h := n.chain
  let s := rounds 7
    #v[h[0], h[1], h[2], h[3], h[4], h[5], h[6], h[7],
      initial[0], initial[1], initial[2], initial[3],
      n.counter.toUInt32, (n.counter >>> 32).toUInt32, n.length, n.flags] n.block
  #v[s[0] ^^^ s[8], s[1] ^^^ s[9], s[2] ^^^ s[10], s[3] ^^^ s[11], s[4] ^^^ s[12],
    s[5] ^^^ s[13], s[6] ^^^ s[14], s[7] ^^^ s[15]]

/-- The word of four bytes, the first one lowest; missing bytes are zero. -/
def word (bs : List UInt8) : UInt32 := bs.foldr (fun b w => (w <<< 8) ||| b.toUInt32) 0

/-- The words of a block of at most 64 bytes. -/
def words (bs : List UInt8) : Block :=
  Vector.ofFn fun (i : Fin 16) => word ((bs.drop (4 * i.val)).take 4)

/-- Chains the blocks of a chunk and leaves the last one open. -/
def chunk (counter : UInt64) : Nat → Chain → UInt32 → List UInt8 → Node
  | 0, h, start, bs => ⟨h, words bs, counter, bs.length.toUInt32, start ||| chunkEnd⟩
  | more + 1, h, start, bs =>
    if bs.length ≤ 64 then ⟨h, words bs, counter, bs.length.toUInt32, start ||| chunkEnd⟩
    else
      let h' := Node.compress ⟨h, words (bs.take 64), counter, 64, start⟩
      chunk counter more h' 0 (bs.drop 64)

/-- The node above two nodes. -/
def join (l r : Node) : Node :=
  let a := l.compress
  let b := r.compress
  ⟨initial, #v[a[0], a[1], a[2], a[3], a[4], a[5], a[6], a[7], b[0], b[1], b[2],
    b[3], b[4], b[5], b[6], b[7]], 0, 64, parent⟩

/-- The bytes of the left part: the largest power of two of chunks below the whole. -/
def leftLength (length : Nat) : Nat := 1024 <<< Nat.log2 ((length - 1) / 1024)

/-- The tree over a message whose first chunk has a given number. -/
def tree : Nat → UInt64 → List UInt8 → Node
  | 0, counter, bs => chunk counter 16 initial chunkStart bs
  | depth + 1, counter, bs =>
    if bs.length ≤ 1024 then chunk counter 16 initial chunkStart bs
    else
      let n := leftLength bs.length
      join (tree depth counter (bs.take n))
        (tree depth (counter + (n / 1024).toUInt64) (bs.drop n))

/-- The four bytes of a word, the lowest first. -/
def bytes (w : UInt32) : List UInt8 :=
  [w.toUInt8, (w >>> 8).toUInt8, (w >>> 16).toUInt8, (w >>> 24).toUInt8]

/-- The 32 bytes of the digest of a message. -/
def hash (bs : List UInt8) : List UInt8 :=
  let top := tree bs.length 0 bs
  (Node.compress ⟨top.chain, top.block, top.counter, top.length,
    top.flags ||| root⟩).toList.flatMap bytes

end ClearanceGraph.Digest.Blake3
