import Mathlib
import Beaver.Proofs.CarrylessProduct

/-!
# Reduction modulo the field polynomial

The product of two blocks is reduced modulo `X^128 + X^7 + X^2 + X + 1`.  Its high half is
folded back a word at a time, as its product with `X^7 + X^2 + X + 1`; the few bits that the
upper word pushes past the top are folded once more.  So the reduction only subtracts a
multiple of the polynomial (`Block.dvd_gfReduce`), and multiplication is that of the quotient
(`Block.mk_gfMul`).
-/

namespace Beaver

open Polynomial

namespace Block

/-- The low part of the polynomial that products are reduced by. -/
noncomputable def tailPoly : (ZMod 2)[X] := X ^ 7 + X ^ 2 + X + 1

/-- The polynomial that products are reduced by. -/
noncomputable def fieldPoly : (ZMod 2)[X] := X ^ 64 * X ^ 64 + tailPoly

theorem bitPoly_tail : bitPoly tail.toNat = tailPoly := by
  have hsum : tail.toNat = 2 ^ 7 ^^^ 2 ^ 2 ^^^ 2 ^ 1 ^^^ 1 := rfl
  rw [hsum, bitPoly_xor, bitPoly_xor, bitPoly_xor, bitPoly_two_pow, bitPoly_two_pow,
    bitPoly_two_pow, bitPoly_one, pow_one, tailPoly]

/-- Folding a word multiplies it by the low part of the field polynomial. -/
theorem poly_fold (x : UInt64) :
    bitPoly (clmulWord x tail).1.toNat + X ^ 64 * bitPoly (clmulWord x tail).2.toNat
      = bitPoly x.toNat * tailPoly := by
  rw [bitPoly_words_clmulWord, bitPoly_tail]

/-- **Reduction** subtracts a multiple of the field polynomial. -/
theorem dvd_gfReduce (low high : Block) :
    fieldPoly ∣ widePoly (low, high) - (gfReduce low high).poly := by
  have hupper := poly_fold high.hi
  have hover := poly_fold (clmulWord high.hi tail).2
  have hlower := poly_fold high.lo
  have hlow : low.poly = bitPoly low.lo.toNat + X ^ 64 * bitPoly low.hi.toNat := poly_mk _ _
  have hhigh : high.poly = bitPoly high.lo.toNat + X ^ 64 * bitPoly high.hi.toNat := poly_mk _ _
  -- what was folded: the high half, and the bits past the top
  refine ⟨high.poly + bitPoly (clmulWord high.hi tail).2.toNat, ?_⟩
  rw [widePoly_eq, gfReduce, fieldPoly, hlow, hhigh]
  simp only [poly_mk, UInt64.toNat_xor, bitPoly_xor]
  generalize (X : (ZMod 2)[X]) ^ 64 = s at *
  linear_combination (-1 : (ZMod 2)[X]) * hover - hlower + s * hupper
    - (bitPoly (clmulWord high.hi tail).1.toNat * s
      + bitPoly (clmulWord high.hi tail).2.toNat * (tailPoly + s * s)
      + bitPoly high.lo.toNat * tailPoly) * CharTwo.two_eq_zero (R := (ZMod 2)[X])

theorem degree_poly_lt (b : Block) : b.poly.degree < 128 := by
  refine (degree_lt_iff_coeff_zero _ _).mpr fun i hi => ?_
  rw [poly, coeff_bitPoly, ← bit_eq_testBit, bit_of_le b hi]
  rfl

theorem degree_fieldPoly : fieldPoly.degree = 128 := by
  have htail : tailPoly.degree < ((64 + 64 : Nat) : WithBot Nat) := by
    refine (degree_lt_iff_coeff_zero _ _).mpr fun i hi => ?_
    have h7 : i ≠ 7 := by omega
    have h2 : i ≠ 2 := by omega
    have h1 : 1 ≠ i := by omega
    have h0 : i ≠ 0 := by omega
    simp [tailPoly, coeff_X_pow, coeff_X, coeff_one, h7, h2, h1, h0]
  have hlead : (X ^ (64 + 64) : (ZMod 2)[X]).degree = ((64 + 64 : Nat) : WithBot Nat) :=
    degree_X_pow _
  rw [fieldPoly, ← pow_add, degree_add_eq_left_of_degree_lt (lt_of_lt_of_eq htail hlead.symm), hlead]
  rfl

/-- Different blocks have different remainders. -/
theorem mk_poly_injective {a b : Block}
    (h : AdjoinRoot.mk fieldPoly a.poly = AdjoinRoot.mk fieldPoly b.poly) : a = b := by
  have hdegree : (a.poly - b.poly).degree < fieldPoly.degree := by
    rw [degree_fieldPoly]
    exact lt_of_le_of_lt (degree_sub_le _ _) (max_lt a.degree_poly_lt b.degree_poly_lt)
  have hzero := eq_zero_of_dvd_of_degree_lt (AdjoinRoot.mk_eq_mk.mp h) hdegree
  exact poly_injective (sub_eq_zero.mp hzero)

theorem mk_gfMul (a b : Block) : AdjoinRoot.mk fieldPoly (a.gfMul b).poly
    = AdjoinRoot.mk fieldPoly a.poly * AdjoinRoot.mk fieldPoly b.poly := by
  have hdvd := dvd_gfReduce (a.clmul b).1 (a.clmul b).2
  rw [← map_mul, ← widePoly_clmul, gfMul]
  exact (AdjoinRoot.mk_eq_mk.mpr hdvd).symm

theorem toNat_ofNat {x : Nat} (h : x < 2 ^ 128) : (ofNat x).toNat = x := by
  rw [toNat_eq, ofNat, UInt64.toNat_ofNat', UInt64.toNat_ofNat', Nat.pow_eq]
  omega

theorem ofNat_toNat (b : Block) : ofNat b.toNat = b :=
  toNat_injective (toNat_ofNat b.toNat_lt)

theorem poly_one : poly one = 1 := bitPoly_one

/-- A block is the sum of its bits. -/
theorem sum_poly (b : Block) :
    ((List.range 128).map fun i => if b.toNat.testBit i then (ofNat (2 ^ i)).poly else 0).sum
      = b.poly := by
  have hterm : ∀ i ∈ List.range 128, (if b.toNat.testBit i then (ofNat (2 ^ i)).poly else 0)
      = if b.toNat.testBit i then bitPoly (2 ^ i) else 0 := by
    intro i hi
    have hlt : 2 ^ i < 2 ^ 128 := Nat.pow_lt_pow_right (by omega) (List.mem_range.mp hi)
    rw [poly, toNat_ofNat hlt]
  rw [List.map_congr_left hterm, sum_bitPoly, Nat.mod_eq_of_lt b.toNat_lt, poly]

end Block

end Beaver
