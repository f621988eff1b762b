import Mathlib
import Beaver.Proofs.Ring.Laws
import Beaver.Proofs.Ring.Reduction
import Beaver.Ring.Name

/-!
# The rings are lawful

Residues are the integers modulo their modulus, whatever the machine words they are kept
in.  Blocks are the polynomials over the field with two elements modulo the field
polynomial, and bits are the integers modulo 2.
-/

namespace Beaver

open List
open ShareRing

/-- A number is the sum of the powers of two at its set bits. -/
theorem sum_testBit (x n : Nat) :
    ((range n).map fun i => if x.testBit i then 2 ^ i else 0).sum = x % 2 ^ n := by
  induction n with
  | zero => simp [Nat.mod_one]
  | succ n ih =>
    rw [range_succ, map_append, sum_append, ih, Nat.mod_pow_succ,
      map_singleton, sum_singleton, Nat.testBit_eq_decide_div_mod_eq]
    rcases Nat.mod_two_eq_zero_or_one (x / 2 ^ n) with h | h
    · simp [h]
    · simp [h]

namespace Residue

/-- A residue as an integer modulo `m`. -/
def toZMod {m : Nat} (a : Residue m) : ZMod m := a.val

theorem toZMod_injective {m : Nat} : Function.Injective (toZMod (m := m)) := by
  intro a b h
  have hmod := (ZMod.natCast_eq_natCast_iff' a.val b.val m).mp h
  rw [Nat.mod_eq_of_lt a.isLt, Nat.mod_eq_of_lt b.isLt] at hmod
  cases a
  cases b
  simpa using hmod

theorem toZMod_complement {m : Nat} (a : Residue m) : ((m - a.val : Nat) : ZMod m) = -toZMod a := by
  rw [Nat.cast_sub (Nat.le_of_lt a.isLt), toZMod, ZMod.natCast_self, zero_sub]

variable {m : Nat} [Modulus m]

theorem toZMod_ofNat (x : Nat) : toZMod (ofNat x : Residue m) = x := by
  simp [toZMod, ofNat]

/-- **Residues are lawful**, if the bits of an element and the width of its word
reach as far as the modulus. -/
theorem lawful {bits width : Nat} {name label : String} {sampling : Sampling}
    (hbits : m ≤ 2 ^ bits) (hwidth : bits ≤ width) (hbytes : width % 8 = 0) :
    @LawfulShareRing (Residue m) (shareRing m bits width name label sampling) := by
  let _ring := shareRing m bits width name label sampling
  have hsize : m ≤ 256 ^ (width / 8) := by
    have hpow : 256 ^ (width / 8) = 2 ^ width := by
      rw [show 256 = 2 ^ 8 by rfl, ← Nat.pow_mul, Nat.mul_div_cancel' (Nat.dvd_of_mod_eq_zero hbytes)]
    rw [hpow]
    exact hbits.trans (Nat.pow_le_pow_right (by omega) hwidth)
  refine .of_injective toZMod_injective ?_ ?_ ?_ ?_ ?_ ?_ ?_ ?_ ?_
  · intro a b
    exact (toZMod_ofNat _).trans (Nat.cast_add _ _)
  · intro a b
    rw [sub_eq_add_neg, ← toZMod_complement]
    exact (toZMod_ofNat _).trans (Nat.cast_add _ _)
  · intro a
    exact (toZMod_ofNat _).trans (toZMod_complement a)
  · intro a b
    exact (toZMod_ofNat _).trans (Nat.cast_mul _ _)
  · exact (toZMod_ofNat 0).trans Nat.cast_zero
  · exact (toZMod_ofNat 1).trans Nat.cast_one
  · intro a
    exact dif_pos a.isLt
  · intro a
    exact Nat.lt_of_lt_of_le a.isLt hsize
  · intro a
    have hterm : ∀ i ∈ range bits, toZMod (scale (basis i) (bit a i))
        = ((if a.val.testBit i then 2 ^ i else 0 : Nat) : ZMod m) := by
      intro i hi
      have hlt : i < width := Nat.lt_of_lt_of_le (mem_range.mp hi) hwidth
      have hbasis : (basis i : Residue m) = ofNat (2 ^ i) := by
        rw [basis, show basis? i = some (ofNat (Nat.pow 2 i)) from if_pos hlt]
        rfl
      have hbit : bit a i = a.val.testBit i := rfl
      rw [hbasis, hbit]
      cases a.val.testBit i
      · exact (toZMod_ofNat 0).trans (by simp)
      · exact (toZMod_ofNat _).trans (by simp)
    have hlt : a.val < 2 ^ bits := Nat.lt_of_lt_of_le a.isLt hbits
    calc ((range bits).map fun i => toZMod (scale (basis i) (bit a i))).sum
        = ((range bits).map fun i =>
            ((if a.val.testBit i then 2 ^ i else 0 : Nat) : ZMod m)).sum := by
          rw [map_congr_left hterm]
      _ = (((range bits).map fun i => if a.val.testBit i then 2 ^ i else 0).sum : Nat) := by
          rw [Nat.cast_list_sum, map_map]
          rfl
      _ = toZMod a := by rw [sum_testBit, Nat.mod_eq_of_lt hlt, toZMod]

end Residue

instance : LawfulShareRing Mersenne61 :=
  Residue.lawful (by decide) (by decide) (by decide)

instance : LawfulShareRing Mersenne127 :=
  Residue.lawful (by decide) (by decide) (by decide)

instance : LawfulShareRing Word64 :=
  Residue.lawful (by decide) (by decide) (by decide)

instance : LawfulShareRing Word128 :=
  Residue.lawful (by decide) (by decide) (by decide)

namespace Gf128

/-- The class of a block's polynomial. -/
noncomputable def toQuotient (a : Gf128) : AdjoinRoot Block.fieldPoly :=
  AdjoinRoot.mk Block.fieldPoly a.block.poly

theorem toQuotient_injective : Function.Injective toQuotient := by
  intro a b h
  cases a
  cases b
  exact congrArg mk (Block.mk_poly_injective h)

theorem toQuotient_add (a b : Gf128) : toQuotient (a + b) = toQuotient a + toQuotient b := by
  rw [toQuotient, toQuotient, toQuotient, ← map_add, ← Block.poly_xor]
  rfl

/-- Every element is its own negative. -/
theorem toQuotient_neg (a : Gf128) : -toQuotient a = toQuotient a := by
  rw [toQuotient, ← map_neg, CharTwo.neg_eq]

end Gf128

instance : LawfulShareRing Gf128 := by
  refine .of_injective Gf128.toQuotient_injective Gf128.toQuotient_add ?_ ?_ ?_ ?_ ?_ ?_ ?_ ?_
  · intro a b
    rw [sub_eq_add_neg, Gf128.toQuotient_neg]
    exact Gf128.toQuotient_add a b
  · intro a
    exact (Gf128.toQuotient_neg a).symm
  · intro a b
    exact Block.mk_gfMul a.block b.block
  · exact (congrArg _ Block.poly_zero).trans (map_zero _)
  · exact (congrArg _ Block.poly_one).trans (map_one _)
  · intro a
    have hread : ofNat? (toNat a) = some (⟨Block.ofNat a.block.toNat⟩ : Gf128) :=
      if_pos a.block.toNat_lt
    rw [hread, Block.ofNat_toNat]
  · intro a
    exact a.block.toNat_lt
  · intro a
    have hterm : ∀ i ∈ range 128, Gf128.toQuotient (scale (basis i) (bit a i))
        = AdjoinRoot.mk Block.fieldPoly
            (if a.block.toNat.testBit i then (Block.ofNat (2 ^ i)).poly else 0) := by
      intro i hi
      have hbasis : (basis i : Gf128) = ⟨Block.ofNat (2 ^ i)⟩ := by
        rw [basis, show basis? i = some (⟨Block.ofNat (Nat.pow 2 i)⟩ : Gf128) from
          if_pos (mem_range.mp hi)]
        rfl
      have hbit : bit a i = a.block.toNat.testBit i := rfl
      rw [hbasis, hbit]
      cases a.block.toNat.testBit i
      · exact congrArg _ Block.poly_zero
      · rfl
    calc ((range 128).map fun i => Gf128.toQuotient (scale (basis i) (bit a i))).sum
        = (((range 128).map fun i => if a.block.toNat.testBit i
            then (Block.ofNat (2 ^ i)).poly else 0).map (AdjoinRoot.mk Block.fieldPoly)).sum := by
          rw [map_congr_left hterm, map_map]
          rfl
      _ = Gf128.toQuotient a := by
          rw [← map_list_sum, Block.sum_poly, Gf128.toQuotient]

/-- A bit as an integer modulo 2. -/
def Gf2.toZMod (a : Gf2) : ZMod 2 := a.value.toNat

instance : LawfulShareRing Gf2 := by
  have hcases : ∀ a : Gf2, a = ⟨false⟩ ∨ a = ⟨true⟩ := by
    rintro ⟨_ | _⟩
    · exact .inl rfl
    · exact .inr rfl
  refine .of_injective (f := Gf2.toZMod) ?_ ?_ ?_ ?_ ?_ rfl rfl ?_ ?_ ?_
  · intro a b h
    rcases hcases a with rfl | rfl <;> rcases hcases b with rfl | rfl
    · rfl
    · exact absurd h (by decide)
    · exact absurd h (by decide)
    · rfl
  · intro a b
    rcases hcases a with rfl | rfl <;> rcases hcases b with rfl | rfl <;> rfl
  · intro a b
    rcases hcases a with rfl | rfl <;> rcases hcases b with rfl | rfl <;> rfl
  · intro a
    rcases hcases a with rfl | rfl <;> rfl
  · intro a b
    rcases hcases a with rfl | rfl <;> rcases hcases b with rfl | rfl <;> rfl
  · intro a
    rcases hcases a with rfl | rfl <;> rfl
  · intro a
    rcases hcases a with rfl | rfl <;> decide
  · intro a
    rcases hcases a with rfl | rfl <;> rfl

instance : (r : RingName) → LawfulShareRing r.Carrier
  | .mersenne61 => (inferInstance : LawfulShareRing Mersenne61)
  | .mersenne127 => (inferInstance : LawfulShareRing Mersenne127)
  | .gf128 => (inferInstance : LawfulShareRing Gf128)
  | .gf2 => (inferInstance : LawfulShareRing Gf2)
  | .word64 => (inferInstance : LawfulShareRing Word64)
  | .word128 => (inferInstance : LawfulShareRing Word128)

instance : (f : FieldName) → LawfulShareRing f.Carrier
  | .mersenne61 => (inferInstance : LawfulShareRing Mersenne61)
  | .mersenne127 => (inferInstance : LawfulShareRing Mersenne127)
  | .gf128 => (inferInstance : LawfulShareRing Gf128)
  | .gf2 => (inferInstance : LawfulShareRing Gf2)

namespace RingName

theorem bits_pos (r : RingName) : 0 < bits r.Carrier := by
  cases r <;> decide

theorem bits_lt (r : RingName) : bits r.Carrier < 2 ^ 64 := by
  cases r <;> decide

theorem bytes_pos (r : RingName) : 0 < bytes r.Carrier := by
  cases r <;> decide

end RingName

theorem Domain.lift_zero (d : Domain) : (Lift.lift (0 : d.value.Carrier) : d.tag.Carrier) = 0 := by
  cases d with
  | same r => rfl
  | bits => rfl
  | words => rfl

end Beaver
