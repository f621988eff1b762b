import Beaver.Ring.Binary
import Beaver.Ring.Residue

/-!
# The rings by name

A run chooses its ring, and the ring of its tags, when it starts.
-/

namespace Beaver

/-- The six rings. -/
inductive RingName where
  | mersenne61
  | mersenne127
  | gf128
  | gf2
  | word64
  | word128
  deriving DecidableEq

namespace RingName

/-- The elements of a ring. -/
@[reducible]
def Carrier : RingName → Type
  | mersenne61 => Mersenne61
  | mersenne127 => Mersenne127
  | gf128 => Gf128
  | gf2 => Gf2
  | word64 => Word64
  | word128 => Word128

instance : (r : RingName) → ShareRing r.Carrier
  | mersenne61 => (inferInstance : ShareRing Mersenne61)
  | mersenne127 => (inferInstance : ShareRing Mersenne127)
  | gf128 => (inferInstance : ShareRing Gf128)
  | gf2 => (inferInstance : ShareRing Gf2)
  | word64 => (inferInstance : ShareRing Word64)
  | word128 => (inferInstance : ShareRing Word128)

/-- All rings. -/
def all : List RingName :=
  [mersenne61, mersenne127, gf128, gf2, word64, word128]

/-- The ring with the given label. -/
def ofLabel? (s : String) : Option RingName :=
  all.find? fun r => ShareRing.label r.Carrier == s

/-- The operations that only some rings have. -/
inductive Operation where
  /-- Taking an integer that may be too large for the ring. -/
  | convert
  /-- Going over to the larger ring of the tags. -/
  | lift
  | invert
  | root

/-- Whether a ring has an operation.  Integers are too large only where the elements do
not fill their words, inverses are taken in the fields, and roots in the prime fields
of odd characteristic. -/
def has : RingName → Operation → Bool
  | mersenne61, .lift | mersenne127, .lift => false
  | mersenne61, _ | mersenne127, _ => true
  | gf128, .invert => true
  | gf128, _ => false
  | gf2, .root => false
  | gf2, _ => true
  | word64, .lift => true
  | word64, _ | word128, _ => false

end RingName

/-- A field by name. -/
inductive FieldName where
  | mersenne61
  | mersenne127
  | gf128
  | gf2
  deriving DecidableEq

namespace FieldName

/-- The elements of a field. -/
@[reducible]
def Carrier : FieldName → Type
  | mersenne61 => Mersenne61
  | mersenne127 => Mersenne127
  | gf128 => Gf128
  | gf2 => Gf2

instance : (f : FieldName) → ShareField f.Carrier
  | mersenne61 => inferInstanceAs (ShareField Mersenne61)
  | mersenne127 => inferInstanceAs (ShareField Mersenne127)
  | gf128 => inferInstanceAs (ShareField Gf128)
  | gf2 => inferInstanceAs (ShareField Gf2)

/-- The square root, in the fields of odd characteristic. -/
def sqrt? : (f : FieldName) → Option (f.Carrier → Option f.Carrier)
  | mersenne61 => some RootField.sqrt?
  | mersenne127 => some RootField.sqrt?
  | gf128 => none
  | gf2 => none

/-- The field with the given label. -/
def ofLabel? (s : String) : Option FieldName :=
  [mersenne61, mersenne127, gf128, gf2].find? fun f => ShareRing.label f.Carrier == s

end FieldName

/-- The ring of the values together with the ring of their tags. -/
inductive Domain where
  /-- One ring for both. -/
  | same (r : RingName)
  /-- Bits with tags in GF(2^128). -/
  | bits
  /-- Integers modulo `2^64` with tags modulo `2^128`. -/
  | words

namespace Domain

/-- The ring of the values. -/
@[reducible]
def value : Domain → RingName
  | same r => r
  | bits => .gf2
  | words => .word64

/-- The ring of the tags. -/
@[reducible]
def tag : Domain → RingName
  | same r => r
  | bits => .gf128
  | words => .word128

instance : (d : Domain) → Lift d.value.Carrier d.tag.Carrier
  | same r => inferInstanceAs (Lift r.Carrier r.Carrier)
  | bits => inferInstanceAs (Lift Gf2 Gf128)
  | words => inferInstanceAs (Lift Word64 Word128)

/-- The domain with the given rings, if tags of the one ring can authenticate
values of the other. -/
def of? (value tag : RingName) : Option Domain :=
  if value = tag then some (same value)
  else if value = .gf2 && tag = .gf128 then some bits
  else if value = .word64 && tag = .word128 then some words
  else none

end Domain

end Beaver
