import Beaver.Ring.Basic

/-!
# Integers modulo a fixed number

The two Mersenne prime fields and the rings of integers modulo `2^64` and `2^128`
are one construction: an integer below the modulus, with every operation reduced.
-/

namespace Beaver

/-- A number that integers can be reduced by. -/
class Modulus (m : Nat) : Prop where
  pos : 0 < m

/-- An integer below `m`. -/
structure Residue (m : Nat) where
  val : Nat
  isLt : val < m
  deriving DecidableEq

namespace Residue

variable {m : Nat} [Modulus m]

/-- The residue of an integer. -/
@[inline]
def ofNat (x : Nat) : Residue m :=
  ⟨x % m, Nat.mod_lt x Modulus.pos⟩

/-- An integer below the modulus is a residue. -/
def ofNat? (x : Nat) : Option (Residue m) :=
  if h : x < m then some ⟨x, h⟩ else none

instance : Add (Residue m) := ⟨fun a b => ofNat (a.val + b.val)⟩

instance : Sub (Residue m) := ⟨fun a b => ofNat (a.val + (m - b.val))⟩

instance : Mul (Residue m) := ⟨fun a b => ofNat (a.val * b.val)⟩

instance : Neg (Residue m) := ⟨fun a => ofNat (m - a.val)⟩

instance : Zero (Residue m) := ⟨ofNat 0⟩

instance : One (Residue m) := ⟨ofNat 1⟩

/-- Multiplies `acc` by the power `base ^ e`, by squaring. -/
def powLoop (acc base : Residue m) (e : Nat) : Residue m :=
  if e = 0 then acc
  else powLoop (if e % 2 = 1 then acc * base else acc) (base * base) (e / 2)
termination_by e
decreasing_by omega

/-- Exponentiation. -/
def pow (a : Residue m) (e : Nat) : Residue m :=
  powLoop 1 a e

/-- The power `m - 2`, which is the inverse if `m` is prime; zero has none. -/
def inverse? (a : Residue m) : Option (Residue m) :=
  if a = 0 then none else some (a.pow (m - 2))

/-- The power `(m + 1) / 4`, which is a root of every square if `m` is prime and
leaves the remainder 3 modulo 4. -/
def sqrt? (a : Residue m) : Option (Residue m) :=
  let root := a.pow ((m + 1) / 4)
  if root * root = a then some root else none

/-- The ring of residues, with its elements kept in words of `width` bits. -/
@[reducible]
def shareRing (m : Nat) [Modulus m] (bits width : Nat) (name label : String)
    (sampling : Sampling) : ShareRing (Residue m) where
  decEq := inferInstance
  bits := bits
  bytes := width / 8
  name := name
  label := label
  toNat := val
  ofNat := ofNat
  ofNat? := ofNat?
  basis? i := if i < width then some (ofNat (Nat.pow 2 i)) else none
  ofBlock b := ofNat b.toNat
  sampling := sampling

end Residue

instance modulus61 : Modulus (Nat.pow 2 61 - 1) := ⟨by decide⟩

instance modulus127 : Modulus (Nat.pow 2 127 - 1) := ⟨by decide⟩

instance modulus64 : Modulus (Nat.pow 2 64) := ⟨by decide⟩

instance modulus128 : Modulus (Nat.pow 2 128) := ⟨by decide⟩

/-- The prime field with `2^61 - 1` elements. -/
abbrev Mersenne61 := Residue (Nat.pow 2 61 - 1)

/-- The prime field with `2^127 - 1` elements. -/
abbrev Mersenne127 := Residue (Nat.pow 2 127 - 1)

/-- The integers modulo `2^64`. -/
abbrev Word64 := Residue (Nat.pow 2 64)

/-- The integers modulo `2^128`. -/
abbrev Word128 := Residue (Nat.pow 2 128)

instance : RootField Mersenne61 where
  toShareRing := Residue.shareRing (Nat.pow 2 61 - 1) 61 64 "p61" "Gfp61" .word
  inverse? := Residue.inverse?
  sqrt? := Residue.sqrt?

instance : RootField Mersenne127 where
  toShareRing := Residue.shareRing (Nat.pow 2 127 - 1) 127 128 "p127" "Gfp127" .wide
  inverse? := Residue.inverse?
  sqrt? := Residue.sqrt?

instance : ShareRing Word64 := Residue.shareRing (Nat.pow 2 64) 64 64 "Z64" "Z64" .word

instance : ShareRing Word128 := Residue.shareRing (Nat.pow 2 128) 128 128 "Z128" "Z128" .wide

/-- The representative is kept. -/
instance : Lift Word64 Word128 := ⟨fun x => Residue.ofNat x.val⟩

end Beaver
