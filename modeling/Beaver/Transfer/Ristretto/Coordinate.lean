import Beaver.Bytes

/-!
# The field of the coordinates

The integers modulo `2^255 - 19`, in ten limbs of 26 and 25 bits in turn, so that
products of limbs and sums of such products fit a machine word.  What is carried out
of the last limb comes back into the first, times 19.

An element has several representations; its integer below the modulus is `toNat`.
-/

namespace Beaver.Ristretto

/-- The modulus of the field. -/
def modulus : Nat := Nat.pow 2 255 - 19

/-- An element of the field. -/
structure Coordinate where
  l0 : UInt64
  l1 : UInt64
  l2 : UInt64
  l3 : UInt64
  l4 : UInt64
  l5 : UInt64
  l6 : UInt64
  l7 : UInt64
  l8 : UInt64
  l9 : UInt64

namespace Coordinate

/-- The lowest 26 bits of a word. -/
@[inline]
def low26 (x : UInt64) : UInt64 := x &&& 0x3ffffff

/-- The lowest 25 bits of a word. -/
@[inline]
def low25 (x : UInt64) : UInt64 := x &&& 0x1ffffff

/-- The element with the given sums in its limbs, after carrying.  Only the second
limb may keep a bit too many. -/
def carry (x0 x1 x2 x3 x4 x5 x6 x7 x8 x9 : UInt64) : Coordinate :=
  let x1 := x1 + (x0 >>> 26)
  let x2 := x2 + (x1 >>> 25)
  let x3 := x3 + (x2 >>> 26)
  let x4 := x4 + (x3 >>> 25)
  let x5 := x5 + (x4 >>> 26)
  let x6 := x6 + (x5 >>> 25)
  let x7 := x7 + (x6 >>> 26)
  let x8 := x8 + (x7 >>> 25)
  let x9 := x9 + (x8 >>> 26)
  let y : UInt64 := low26 x0 + (x9 >>> 25) * 19
  ⟨low26 y, low25 x1 + (y >>> 26), low26 x2, low25 x3, low26 x4, low25 x5, low26 x6, low25 x7, low26 x8, low25 x9⟩

instance : Add Coordinate := ⟨fun a b =>
  carry (a.l0 + b.l0) (a.l1 + b.l1) (a.l2 + b.l2) (a.l3 + b.l3) (a.l4 + b.l4)
    (a.l5 + b.l5) (a.l6 + b.l6) (a.l7 + b.l7) (a.l8 + b.l8) (a.l9 + b.l9)⟩

/-- Twice the modulus is added, so that no limb gets negative. -/
instance : Sub Coordinate := ⟨fun a b =>
  carry (a.l0 + 0x7ffffda - b.l0) (a.l1 + 0x3fffffe - b.l1) (a.l2 + 0x7fffffe - b.l2)
    (a.l3 + 0x3fffffe - b.l3) (a.l4 + 0x7fffffe - b.l4) (a.l5 + 0x3fffffe - b.l5)
    (a.l6 + 0x7fffffe - b.l6) (a.l7 + 0x3fffffe - b.l7) (a.l8 + 0x7fffffe - b.l8)
    (a.l9 + 0x3fffffe - b.l9)⟩

/-- The product limb by limb.  A product of two limbs in odd places counts twice, as
their places are half a bit too low, and a product beyond the last limb 19 times. -/
def mul (a b : Coordinate) : Coordinate :=
  let d1 := 2 * a.l1
  let d3 := 2 * a.l3
  let d5 := 2 * a.l5
  let d7 := 2 * a.l7
  let d9 := 2 * a.l9
  let w1 := 19 * b.l1
  let w2 := 19 * b.l2
  let w3 := 19 * b.l3
  let w4 := 19 * b.l4
  let w5 := 19 * b.l5
  let w6 := 19 * b.l6
  let w7 := 19 * b.l7
  let w8 := 19 * b.l8
  let w9 := 19 * b.l9
  carry
    (a.l0 * b.l0 + d1 * w9 + a.l2 * w8 + d3 * w7 + a.l4 * w6
      + d5 * w5 + a.l6 * w4 + d7 * w3 + a.l8 * w2 + d9 * w1)
    (a.l0 * b.l1 + a.l1 * b.l0 + a.l2 * w9 + a.l3 * w8 + a.l4 * w7
      + a.l5 * w6 + a.l6 * w5 + a.l7 * w4 + a.l8 * w3 + a.l9 * w2)
    (a.l0 * b.l2 + d1 * b.l1 + a.l2 * b.l0 + d3 * w9 + a.l4 * w8
      + d5 * w7 + a.l6 * w6 + d7 * w5 + a.l8 * w4 + d9 * w3)
    (a.l0 * b.l3 + a.l1 * b.l2 + a.l2 * b.l1 + a.l3 * b.l0 + a.l4 * w9
      + a.l5 * w8 + a.l6 * w7 + a.l7 * w6 + a.l8 * w5 + a.l9 * w4)
    (a.l0 * b.l4 + d1 * b.l3 + a.l2 * b.l2 + d3 * b.l1 + a.l4 * b.l0
      + d5 * w9 + a.l6 * w8 + d7 * w7 + a.l8 * w6 + d9 * w5)
    (a.l0 * b.l5 + a.l1 * b.l4 + a.l2 * b.l3 + a.l3 * b.l2 + a.l4 * b.l1
      + a.l5 * b.l0 + a.l6 * w9 + a.l7 * w8 + a.l8 * w7 + a.l9 * w6)
    (a.l0 * b.l6 + d1 * b.l5 + a.l2 * b.l4 + d3 * b.l3 + a.l4 * b.l2
      + d5 * b.l1 + a.l6 * b.l0 + d7 * w9 + a.l8 * w8 + d9 * w7)
    (a.l0 * b.l7 + a.l1 * b.l6 + a.l2 * b.l5 + a.l3 * b.l4 + a.l4 * b.l3
      + a.l5 * b.l2 + a.l6 * b.l1 + a.l7 * b.l0 + a.l8 * w9 + a.l9 * w8)
    (a.l0 * b.l8 + d1 * b.l7 + a.l2 * b.l6 + d3 * b.l5 + a.l4 * b.l4
      + d5 * b.l3 + a.l6 * b.l2 + d7 * b.l1 + a.l8 * b.l0 + d9 * w9)
    (a.l0 * b.l9 + a.l1 * b.l8 + a.l2 * b.l7 + a.l3 * b.l6 + a.l4 * b.l5
      + a.l5 * b.l4 + a.l6 * b.l3 + a.l7 * b.l2 + a.l8 * b.l1 + a.l9 * b.l0)

instance : Mul Coordinate := ⟨mul⟩

/-- The integer below the modulus. -/
def toNat (a : Coordinate) : Nat :=
  (a.l0.toNat + a.l1.toNat * Nat.pow 2 26 + a.l2.toNat * Nat.pow 2 51 + a.l3.toNat * Nat.pow 2 77
    + a.l4.toNat * Nat.pow 2 102 + a.l5.toNat * Nat.pow 2 128 + a.l6.toNat * Nat.pow 2 153
    + a.l7.toNat * Nat.pow 2 179 + a.l8.toNat * Nat.pow 2 204 + a.l9.toNat * Nat.pow 2 230) % modulus

/-- The element of an integer. -/
def ofNat (n : Nat) : Coordinate :=
  let n := n % modulus
  let limb (place width : Nat) : UInt64 := (n / Nat.pow 2 place % Nat.pow 2 width).toUInt64
  ⟨limb 0 26, limb 26 25, limb 51 26, limb 77 25, limb 102 26,
    limb 128 25, limb 153 26, limb 179 25, limb 204 26, limb 230 25⟩

instance : Zero Coordinate := ⟨ofNat 0⟩

instance : One Coordinate := ⟨ofNat 1⟩

instance : Neg Coordinate := ⟨fun a => 0 - a⟩

/-- Squares `n` times. -/
def square (a : Coordinate) : Nat → Coordinate
  | 0 => a
  | n + 1 => (a * a).square n

/-- From the powers of an element with the exponents `2 ^ m - 1` and `2 ^ n - 1` the
one with the exponent `2 ^ (m + n) - 1`. -/
def join (a : Coordinate) (n : Nat) (b : Coordinate) : Coordinate :=
  a.square n * b

/-- The power with the exponent `2 ^ 252 - 3`, which is an eighth of the modulus less
five. -/
def powEighth (a : Coordinate) : Coordinate :=
  let a2 := a.join 1 a
  let a4 := a2.join 2 a2
  let a5 := a4.join 1 a
  let a10 := a5.join 5 a5
  let a20 := a10.join 10 a10
  let a40 := a20.join 20 a20
  let a50 := a40.join 10 a10
  let a100 := a50.join 50 a50
  let a200 := a100.join 100 a100
  let a250 := a200.join 50 a50
  a250.square 2 * a

/-- Whether the integer is odd. -/
def isNegative (a : Coordinate) : Bool :=
  a.toNat % 2 == 1

/-- The one of `a` and `-a` that is not negative. -/
def magnitude (a : Coordinate) : Coordinate :=
  if a.isNegative then -a else a

end Coordinate

end Beaver.Ristretto
