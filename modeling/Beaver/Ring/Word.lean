import Beaver.Ring.Name

/-!
# Ring elements in machine words

The same rings once more, as they are computed with words of 64 or 128 bits.  Here
a prime field element is any word, reduced only as far as the folding steps reduce
it; a sum or a product that leaves the word, a difference below zero and a shift past
the width are faults.  On words below the modulus there is no fault, and the result is
the residue.
-/

namespace Beaver

/-- A sum that has to fit in a word. -/
def addIn? (width a b : Nat) : Option Nat :=
  if a + b < Nat.pow 2 width then some (a + b) else none

/-- A product that has to fit in a word. -/
def mulIn? (width a b : Nat) : Option Nat :=
  if a * b < Nat.pow 2 width then some (a * b) else none

/-- A difference that must not be below zero. -/
def subIn? (a b : Nat) : Option Nat :=
  if b ≤ a then some (a - b) else none

/-- What has reached the modulus is reduced by it once. -/
def reduceOnce? (p x : Nat) : Option Nat :=
  if p ≤ x then subIn? x p else some x

/-- Folds a number below `2^128` into a residue modulo `2^61 - 1`, since `2^61` is
congruent to 1. -/
def reduce61? (x : Nat) : Option Nat := do
  let x ← addIn? 128 (x % Nat.pow 2 61) (x / Nat.pow 2 61)
  let x ← addIn? 128 (x % Nat.pow 2 61) (x / Nat.pow 2 61)
  reduceOnce? (Nat.pow 2 61 - 1) (x % Nat.pow 2 64)

/-- Folds a number below `2^128` into a residue modulo `2^127 - 1`. -/
def reduce127? (x : Nat) : Option Nat := do
  let x ← addIn? 128 (x % Nat.pow 2 127) (x / Nat.pow 2 127)
  reduceOnce? (Nat.pow 2 127 - 1) x

/-- The product of two words of 128 bits as its low and high word, from the
products of their halves. -/
def mulWide? (a b : Nat) : Option (Nat × Nat) := do
  let (a0, a1) := (a % Nat.pow 2 64, a / Nat.pow 2 64)
  let (b0, b1) := (b % Nat.pow 2 64, b / Nat.pow 2 64)
  let p00 ← mulIn? 128 a0 b0
  let p01 ← mulIn? 128 a0 b1
  let p10 ← mulIn? 128 a1 b0
  let p11 ← mulIn? 128 a1 b1
  let mid ← addIn? 128 (p00 / Nat.pow 2 64) (p01 % Nat.pow 2 64)
  let mid ← addIn? 128 mid (p10 % Nat.pow 2 64)
  let low := p00 % Nat.pow 2 64 ||| (mid <<< 64) % Nat.pow 2 128
  let high ← addIn? 128 p11 (p01 / Nat.pow 2 64)
  let high ← addIn? 128 high (p10 / Nat.pow 2 64)
  let high ← addIn? 128 high (mid / Nat.pow 2 64)
  some (low, high)

/-- The product modulo `2^61 - 1`, folded from a word of 128 bits. -/
def mul61? (a b : Nat) : Option Nat := do
  reduce61? (← mulIn? 128 a b)

/-- The product modulo `2^127 - 1`, folded from its two words. -/
def mul127? (a b : Nat) : Option Nat := do
  let (low, high) ← mulWide? a b
  let folded ← addIn? 128 (low % Nat.pow 2 127) (low / Nat.pow 2 127)
  let folded ← addIn? 128 folded ((high <<< 1) % Nat.pow 2 128)
  reduce127? folded

namespace RingName

/-- The element that an integer of the machine width stands for. -/
def new? (r : RingName) (x : Nat) : Option Nat :=
  match r with
  | mersenne61 => reduce61? x
  | mersenne127 => reduce127? x
  | gf128 | word64 | word128 => some x
  | gf2 => some (x % 2)

/-- The element that a random block stands for. -/
def ofBlock? (r : RingName) (b : Block) : Option Nat :=
  match r with
  | mersenne61 => reduce61? b.toNat
  | mersenne127 => reduce127? b.toNat
  | gf128 | word128 => some b.toNat
  | gf2 => some b.lsb.toNat
  | word64 => some (b.toNat % Nat.pow 2 64)

/-- The sum of two words, one subtraction away from the residue. -/
def addMod? (width p a b : Nat) : Option Nat := do
  reduceOnce? p (← addIn? width a b)

/-- Addition. -/
def add? (r : RingName) (a b : Nat) : Option Nat :=
  match r with
  | mersenne61 => addMod? 64 (Nat.pow 2 61 - 1) a b
  | mersenne127 => addMod? 128 (Nat.pow 2 127 - 1) a b
  | gf128 | gf2 => some (a ^^^ b)
  | word64 => some ((a + b) % Nat.pow 2 64)
  | word128 => some ((a + b) % Nat.pow 2 128)

/-- The complement to the modulus; zero is its own. -/
def negMod? (p a : Nat) : Option Nat :=
  if a = 0 then some 0 else subIn? p a

/-- Negation. -/
def neg? (r : RingName) (a : Nat) : Option Nat :=
  match r with
  | mersenne61 => negMod? (Nat.pow 2 61 - 1) a
  | mersenne127 => negMod? (Nat.pow 2 127 - 1) a
  | gf128 | gf2 => some a
  | word64 => some ((Nat.pow 2 64 - a) % Nat.pow 2 64)
  | word128 => some ((Nat.pow 2 128 - a) % Nat.pow 2 128)

/-- Subtraction, as the sum with the negative. -/
def sub? (r : RingName) (a b : Nat) : Option Nat := do
  r.add? a (← r.neg? b)

/-- Multiplication. -/
def mul? (r : RingName) (a b : Nat) : Option Nat :=
  match r with
  | mersenne61 => mul61? a b
  | mersenne127 => mul127? a b
  | gf128 => some ((Block.ofNat a).gfMul (Block.ofNat b)).toNat
  | gf2 => some (a &&& b)
  | word64 => some (a * b % Nat.pow 2 64)
  | word128 => some (a * b % Nat.pow 2 128)

/-- The width of the word that holds an element. -/
def width : RingName → Nat
  | mersenne61 | word64 => 64
  | mersenne127 | gf128 | word128 => 128
  | gf2 => 8

/-- Bit `i` of a word; a single bit has no later bits, and the others have them up
to their width. -/
def bit? (r : RingName) (a i : Nat) : Option Bool :=
  if r = gf2 then some (i = 0 && a = 1)
  else if i < r.width then some (a.testBit i)
  else none

/-- The word with only bit `i` set; a single bit is set whatever the position. -/
def basis? (r : RingName) (i : Nat) : Option Nat :=
  if r = gf2 then some 1 else if i < r.width then some (Nat.pow 2 i) else none

/-- Adds up words. -/
def sum? (r : RingName) (xs : List Nat) : Option Nat :=
  xs.foldlM r.add? 0

/-- Adds up the words that the set bits stand for. -/
def ofBits? (r : RingName) (bs : List Bool) : Option Nat :=
  (bs.zipIdx.filter (·.1)).foldlM (fun acc p => do r.add? acc (← r.basis? p.2)) 0

/-- Multiplies `acc` by the power `base ^ e`, by squaring. -/
def powLoop? (r : RingName) (acc base e : Nat) : Option Nat :=
  if e = 0 then some acc
  else do
    let acc ← if e % 2 = 1 then r.mul? acc base else some acc
    let square ← r.mul? base base
    r.powLoop? acc square (e / 2)
termination_by e
decreasing_by omega

/-- Exponentiation. -/
def pow? (r : RingName) (a e : Nat) : Option Nat :=
  r.powLoop? 1 a e

/-- The inverse as far as there is one, or a fault. -/
def inverse? (r : RingName) (a : Nat) : Option (Option Nat) :=
  match r with
  | mersenne61 => if a = 0 then some none else (r.pow? a (Nat.pow 2 61 - 3)).map some
  | mersenne127 => if a = 0 then some none else (r.pow? a (Nat.pow 2 127 - 3)).map some
  | gf128 => some ((Block.ofNat a).gfInverse?.map Block.toNat)
  | gf2 => some (if a = 1 then some 1 else none)
  | word64 | word128 => some none

/-- The square root as far as there is one, or a fault.  The square of the root is
compared with the word itself, which a word past the modulus never equals. -/
def sqrt? (r : RingName) (a : Nat) : Option (Option Nat) :=
  let find e := do
    let root ← r.pow? a e
    let square ← r.mul? root root
    some (if square = a then some root else none)
  match r with
  | mersenne61 => find (Nat.pow 2 59)
  | mersenne127 => find (Nat.pow 2 125)
  | gf128 | gf2 | word64 | word128 => some none

end RingName

end Beaver
