import Beaver.Block

/-!
# Registers of 256 bits

A square is transposed in 64 registers with two rows each, one to a lane of 128 bits.
An instruction does the same to both lanes, or to all their elements of 64 or of 16
bits; what is shifted out of an element is lost.

The square is transposed by halves: first the bits of neighbouring rows change places,
then pairs of bits of rows two apart, and so on, until the last step swaps two quadrants
of 64 rows each.
-/

namespace Beaver

/-- 256 bits, as the low and the high lane. -/
structure Register where
  low : Block
  high : Block
  deriving DecidableEq, Inhabited

namespace Register

instance : XorOp Register := ⟨fun a b => ⟨a.low ^^^ b.low, a.high ^^^ b.high⟩⟩

instance : AndOp Register := ⟨fun a b => ⟨a.low &&& b.low, a.high &&& b.high⟩⟩

/-- One of the four lanes of two registers.  The low two bits of the control say which;
if bit 3 is set, the lane is cleared. -/
def pick (a b : Register) (control : Nat) : Block :=
  if control.testBit 3 then .zero
  else match control % 4 with
    | 0 => a.low
    | 1 => a.high
    | 2 => b.low
    | _ => b.high

/-- Two of the four lanes of two registers, each by four bits of the control. -/
def permute (a b : Register) (control : Nat) : Register :=
  ⟨pick a b (control % 16), pick a b (control / 16)⟩

/-- The first elements of 64 bits in each lane of two registers, side by side. -/
def unpackLow (a b : Register) : Register :=
  ⟨⟨a.low.lo, b.low.lo⟩, ⟨a.high.lo, b.high.lo⟩⟩

/-- The second elements of 64 bits in each lane of two registers, side by side. -/
def unpackHigh (a b : Register) : Register :=
  ⟨⟨a.low.hi, b.low.hi⟩, ⟨a.high.hi, b.high.hi⟩⟩

/-- The register with the same word in all places. -/
def ofWord (x : UInt64) : Register :=
  ⟨⟨x, x⟩, ⟨x, x⟩⟩

/-- Applies a function to every element of 64 bits. -/
def mapWords (f : UInt64 → UInt64) (a : Register) : Register :=
  ⟨⟨f a.low.lo, f a.low.hi⟩, ⟨f a.high.lo, f a.high.hi⟩⟩

/-- Shifts a word up; a shift by its whole width clears it. -/
def wordUp (n : Nat) (x : UInt64) : UInt64 :=
  if n < 64 then x <<< UInt64.ofNat n else 0

/-- Shifts a word down. -/
def wordDown (n : Nat) (x : UInt64) : UInt64 :=
  if n < 64 then x >>> UInt64.ofNat n else 0

/-- Applies a function to the four elements of 16 bits of a word. -/
def mapQuarters (f : UInt16 → UInt16) (x : UInt64) : UInt64 :=
  (f x.toUInt16).toUInt64 ||| (f (x >>> 16).toUInt16).toUInt64 <<< 16
    ||| (f (x >>> 32).toUInt16).toUInt64 <<< 32 ||| (f (x >>> 48).toUInt16).toUInt64 <<< 48

/-- Shifts up the four elements of 16 bits of a word. -/
def quartersUp (n : Nat) : UInt64 → UInt64 :=
  mapQuarters fun x => if n < 16 then x <<< UInt16.ofNat n else 0

/-- Shifts down the four elements of 16 bits of a word. -/
def quartersDown (n : Nat) : UInt64 → UInt64 :=
  mapQuarters fun x => if n < 16 then x >>> UInt16.ofNat n else 0

/-- The word with the same 16 bits in all four places. -/
def ofQuarter (x : UInt16) : UInt64 :=
  mapQuarters (fun _ => x) 0

/-- Transposes the 2 by 2 matrices that the two rows of each register are made of.  The
upper rows are brought together in one register, and so are the lower rows. -/
def transposePairs (x y : Register) : Register × Register :=
  let u := permute x y 0x20
  let v := permute x y 0x31
  let difference := (u ^^^ v.mapWords (quartersUp 1)) &&& ofWord (ofQuarter 0b1010101010101010)
  let u := u ^^^ difference
  let v := v ^^^ difference.mapWords (quartersDown 1)
  (permute u v 0x20, permute u v 0x31)

/-- The upper bits of the rows of `x` change places with the bits of the rows of `y` that
stand `shift` lower, among the places of a mask. -/
def swapBlocks (shift : Nat) (mask : UInt64) (x y : Register) : Register × Register :=
  let difference := (x ^^^ y.mapWords (wordUp shift)) &&& ofWord mask
  (x ^^^ difference, y ^^^ difference.mapWords (wordDown shift))

/-- The upper halves of the rows of `x` change places with the lower halves of the rows of
`y`. -/
def swapQuadrants (x y : Register) : Register × Register :=
  (unpackLow x y, unpackHigh x y)

/-- Repeats a pattern of `length` bits until it fills a word. -/
def repeated (pattern : UInt64) (length : Nat) : UInt64 :=
  if 0 < length ∧ length < 64 then
    repeated (pattern ||| pattern <<< UInt64.ofNat length) (2 * length)
  else pattern
termination_by 64 - length
decreasing_by omega

/-- The upper half of every group of `2 ^ (level + 1)` columns. -/
def levelMask : Nat → UInt64
  | 1 => repeated 0b1100 4
  | 2 => repeated 0b11110000 8
  | 3 => repeated 0b1111111100000000 16
  | 4 => repeated 0b11111111111111110000000000000000 32
  | _ => 0xffffffff00000000

/-- Takes registers in pairs, `offset` apart in groups of twice that many. -/
def inPairs (offset : Nat) (f : Register → Register → Register × Register)
    (rs : Vector Register 64) : Vector Register 64 :=
  .ofFn fun i =>
    if i.val / offset % 2 = 0 then (f rs[i] (rs[i.val + offset]?.getD default)).1
    else (f rs[i.val - offset] rs[i]).2

/-- Transposes the square whose rows are in 64 registers. -/
def transposeAll (rs : Vector Register 64) : Vector Register 64 :=
  let rs := inPairs 1 transposePairs rs
  let rs := [1, 2, 3, 4, 5].foldl (fun rs level =>
    inPairs (Nat.pow 2 (level - 1)) (swapBlocks (Nat.pow 2 level) (levelMask level)) rs) rs
  inPairs 32 swapQuadrants rs

end Register

end Beaver
