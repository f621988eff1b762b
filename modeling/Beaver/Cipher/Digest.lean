import Beaver.Cipher.Quad

/-!
# The BLAKE3 digest

The input is cut into chunks of 1024 bytes.  A chunk is compressed block by
block, 64 bytes at a time; the chunks are the leaves of a binary tree whose left
subtrees are as large as possible, and the digest is read off the root.  The same
tree with another key and another flag separates the uses of the hash from each
other.
-/

namespace Beaver.Digest

/-- A chaining value or a key: eight words. -/
structure Chain where
  low : Quad
  high : Quad
  deriving DecidableEq

/-- The chaining value of the plain digest. -/
def initial : Chain where
  low := ⟨0x6a09e667, 0xbb67ae85, 0x3c6ef372, 0xa54ff53a⟩
  high := ⟨0x510e527f, 0x9b05688c, 0x1f83d9ab, 0x5be0cd19⟩

/-- The 32 bytes of a chaining value. -/
def Chain.toBytes (c : Chain) : Bytes :=
  bytesOfWords (c.low.toList ++ c.high.toList)

/-- The sixteen words of a block, as the even and odd words of its halves. -/
structure Message where
  even0 : Quad
  odd0 : Quad
  even1 : Quad
  odd1 : Quad

/-- The words of the next round, which are those of this round in a fixed other
order. -/
def Message.permute (m : Message) : Message where
  even0 := ⟨m.even0.w1, m.odd0.w1, m.odd0.w3, m.even0.w2⟩
  odd0 := ⟨m.even0.w3, m.even1.w1, m.even0.w0, m.odd1.w2⟩
  even1 := ⟨m.odd0.w0, m.even1.w2, m.odd1.w0, m.odd1.w3⟩
  odd1 := ⟨m.odd1.w1, m.odd0.w2, m.even1.w3, m.even1.w0⟩

/-- The message of up to 64 bytes, padded with zero bytes. -/
def Message.ofBytes (bs : Bytes) : Message :=
  match wordsOfBytes (bs ++ List.replicate (64 - bs.length) 0) with
  | [m0, m1, m2, m3, m4, m5, m6, m7, m8, m9, m10, m11, m12, m13, m14, m15] =>
    ⟨⟨m0, m2, m4, m6⟩, ⟨m1, m3, m5, m7⟩, ⟨m8, m10, m12, m14⟩, ⟨m9, m11, m13, m15⟩⟩
  | _ => ⟨⟨0, 0, 0, 0⟩, ⟨0, 0, 0, 0⟩, ⟨0, 0, 0, 0⟩, ⟨0, 0, 0, 0⟩⟩

/-- The message of two chaining values. -/
def Message.ofChains (l r : Chain) : Message where
  even0 := ⟨l.low.w0, l.low.w2, l.high.w0, l.high.w2⟩
  odd0 := ⟨l.low.w1, l.low.w3, l.high.w1, l.high.w3⟩
  even1 := ⟨r.low.w0, r.low.w2, r.high.w0, r.high.w2⟩
  odd1 := ⟨r.low.w1, r.low.w3, r.high.w1, r.high.w3⟩

/-- The four rows of the working square. -/
structure Square where
  a : Quad
  b : Quad
  c : Quad
  d : Quad

/-- Mixes the four columns with two rows of the message. -/
@[inline]
def mix (s : Square) (x y : Quad) : Square :=
  let a := (s.a.add s.b).add x
  let d := (s.d.xor a).rotate 16
  let c := s.c.add d
  let b := (s.b.xor c).rotate 20
  let a := (a.add b).add y
  let d := (d.xor a).rotate 24
  let c := c.add d
  let b := (b.xor c).rotate 25
  ⟨a, b, c, d⟩

/-- One round: the columns, then the diagonals. -/
def round (s : Square) (m : Message) : Square :=
  let s := mix s m.even0 m.odd0
  let s := mix ⟨s.a, s.b.turn1, s.c.turn2, s.d.turn3⟩ m.even1 m.odd1
  ⟨s.a, s.b.turn3, s.c.turn2, s.d.turn1⟩

/-- A number of rounds, each with the message in a new order. -/
def rounds : Nat → Square → Message → Square
  | 0, s, _ => s
  | n + 1, s, m => rounds n (round s m) m.permute

/-- A block that is ready to be compressed: what feeds it, and what it is. -/
structure Node where
  chain : Chain
  message : Message
  counter : UInt64
  length : UInt32
  flags : UInt32

/-- The first block of a chunk. -/
def chunkStart : UInt32 := 1

/-- The last block of a chunk. -/
def chunkEnd : UInt32 := 2

/-- A block of two chaining values. -/
def parent : UInt32 := 4

/-- The block the digest is read from. -/
def root : UInt32 := 8

/-- A digest under a key that stands for a purpose. -/
def purpose : UInt32 := 64

/-- The first eight words of the compression of a block. -/
def Node.compress (n : Node) : Chain :=
  let tail : Quad := ⟨n.counter.toUInt32, (n.counter >>> 32).toUInt32, n.length, n.flags⟩
  let s := rounds 7 ⟨n.chain.low, n.chain.high, initial.low, tail⟩ n.message
  ⟨s.a.xor s.c, s.b.xor s.d⟩

/-- The digest read off the root of a tree. -/
def Node.digest (n : Node) : Bytes :=
  Chain.toBytes { n with counter := 0, flags := n.flags ||| root }.compress

/-- The last block of a chunk, after all earlier ones were compressed. -/
def chunkNode (flags : UInt32) (index : UInt64) (first : UInt32) (chain : Chain) (bs : Bytes) :
    Node :=
  let block := bs.take 64
  let rest := bs.drop 64
  if _h : rest = [] then
    ⟨chain, .ofBytes block, index, block.length.toUInt32, flags ||| first ||| chunkEnd⟩
  else
    let next := Node.compress ⟨chain, .ofBytes block, index, 64, flags ||| first⟩
    chunkNode flags index 0 next rest
termination_by bs.length
decreasing_by
  have hne : bs.drop 64 ≠ [] := by assumption
  simp only [ne_eq, List.drop_eq_nil_iff] at hne
  simp only [List.length_drop]
  omega

/-- The leaves of the tree, from the chunk with the given index on. -/
def leaves (key : Chain) (flags : UInt32) (index : UInt64) (bs : Bytes) : List Node :=
  let rest := bs.drop 1024
  let leaf := chunkNode flags index chunkStart key (bs.take 1024)
  if _h : rest = [] then [leaf] else leaf :: leaves key flags (index + 1) rest
termination_by bs.length
decreasing_by
  have hne : bs.drop 1024 ≠ [] := by assumption
  simp only [ne_eq, List.drop_eq_nil_iff] at hne
  simp only [List.length_drop]
  omega

/-- Joins neighbours; an odd one out moves up as it is. -/
def joinPairs (key : Chain) (flags : UInt32) : List Node → List Node
  | l :: r :: rest =>
    ⟨key, .ofChains l.compress r.compress, 0, 64, flags ||| parent⟩ :: joinPairs key flags rest
  | rest => rest

theorem length_joinPairs_le (key : Chain) (flags : UInt32) (nodes : List Node) :
    (joinPairs key flags nodes).length ≤ nodes.length := by
  fun_induction joinPairs key flags nodes with
  | case1 l r rest ih => simp only [List.length_cons]; omega
  | case2 rest hrest => exact Nat.le_refl _

/-- Joins level by level up to the root. -/
def treeRoot (key : Chain) (flags : UInt32) (first : Node) : List Node → Node
  | [] => first
  | second :: rest =>
    let joined : Node := ⟨key, .ofChains first.compress second.compress, 0, 64, flags ||| parent⟩
    treeRoot key flags joined (joinPairs key flags rest)
termination_by rest => rest.length
decreasing_by
  have := length_joinPairs_le key flags rest
  simp only [List.length_cons]
  omega

/-- The digest of a byte string under a key. -/
def keyed (key : Chain) (flags : UInt32) (bs : Bytes) : Bytes :=
  match leaves key flags 0 bs with
  | [] => []
  | first :: rest => (treeRoot key flags first rest).digest

/-- A digest has 32 bytes. -/
@[simp]
theorem length_keyed (key : Chain) (flags : UInt32) (bs : Bytes) :
    (keyed key flags bs).length = 32 := by
  have hleaves : leaves key flags 0 bs ≠ [] := by
    rw [leaves]
    split <;> simp
  rw [keyed]
  split
  · next hnil => exact absurd hnil hleaves
  · exact length_bytesOfWords _

/-- The plain digest of a byte string: 32 bytes. -/
def hash (bs : Bytes) : Bytes :=
  keyed initial 0 bs

@[simp]
theorem length_hash (bs : Bytes) : (hash bs).length = 32 := length_keyed initial 0 bs

/-- The digest of a byte string for one purpose, given by its key. -/
def hashFor (key : Chain) (bs : Bytes) : Bytes :=
  keyed key purpose bs

end Beaver.Digest
