import Beaver.Bytes

/-!
# Blocks of 128 bits

A block is the unit of every oblivious transfer and of every bit matrix.  Bit `i`
of a block is bit `i` of the integer it stands for, and bit `i % 8` of byte
`i / 8` of its 16 bytes.  The two 64-bit halves are kept as machine words.
-/

namespace Beaver

/-- 128 bits, as the low and the high half. -/
structure Block where
  lo : UInt64
  hi : UInt64
  deriving DecidableEq, Inhabited

namespace Block

/-- All bits clear. -/
def zero : Block := ⟨0, 0⟩

/-- Only bit 0 set. -/
def one : Block := ⟨1, 0⟩

/-- All bits set. -/
def ones : Block := ⟨0xffffffffffffffff, 0xffffffffffffffff⟩

/-- The block of the low 128 bits of an integer. -/
def ofNat (x : Nat) : Block :=
  ⟨UInt64.ofNat x, UInt64.ofNat (x / Nat.pow 2 64)⟩

/-- The integer whose bits these are. -/
def toNat (b : Block) : Nat :=
  b.lo.toNat + Nat.pow 2 64 * b.hi.toNat

/-- The 16 bytes of a block, byte 0 first. -/
def toBytes (b : Block) : Bytes :=
  Bytes.ofNatLE 8 b.lo.toNat ++ Bytes.ofNatLE 8 b.hi.toNat

@[simp]
theorem length_toBytes (b : Block) : b.toBytes.length = 16 := by
  simp [toBytes]

/-- The block of the first 16 bytes; missing bytes count as zero. -/
def ofBytes (bs : Bytes) : Block :=
  ⟨UInt64.ofNat (Bytes.toNatLE (bs.take 8)), UInt64.ofNat (Bytes.toNatLE ((bs.drop 8).take 8))⟩

instance : XorOp Block := ⟨fun a b => ⟨a.lo ^^^ b.lo, a.hi ^^^ b.hi⟩⟩

instance : AndOp Block := ⟨fun a b => ⟨a.lo &&& b.lo, a.hi &&& b.hi⟩⟩

instance : Complement Block := ⟨fun a => ⟨~~~a.lo, ~~~a.hi⟩⟩

/-- The bit at a position below 128; every later position reads as clear. -/
def bit (b : Block) (i : Nat) : Bool :=
  if i < 64 then (b.lo >>> UInt64.ofNat i) &&& 1 == 1
  else if i < 128 then (b.hi >>> UInt64.ofNat (i - 64)) &&& 1 == 1
  else false

/-- The bit at a position, which has to be below 128. -/
def bit? (b : Block) (i : Nat) : Option Bool :=
  if i < 128 then some (b.bit i) else none

/-- Bit 0. -/
def lsb (b : Block) : Bool :=
  b.lo &&& 1 == 1

/-- The block itself for a set bit and zero for a clear one. -/
def scale (b : Block) (c : Bool) : Block :=
  if c then b else zero

/-- The four 32-bit words of a block, the least significant first. -/
def words (b : Block) : List UInt32 :=
  [b.lo.toUInt32, (b.lo >>> 32).toUInt32, b.hi.toUInt32, (b.hi >>> 32).toUInt32]

end Block

end Beaver
