import Mathlib
import Beaver.Proofs.Ring.Fields

/-!
# The field of blocks

Products, remainders and powers of blocks are those of polynomials over the field with two
elements (`Block.polynomial_arithmetic`).  The field polynomial is irreducible, so that its
quotient is a field with `2 ^ 128` elements; there the power `2 ^ 128 - 1` of every element but
zero is one, and the power before it the inverse (`Gf128.inverse_complete`).
-/

namespace Beaver

open Polynomial

namespace Block

theorem X_pow_128 : (X ^ 128 : (ZMod 2)[X]) = X ^ 64 * X ^ 64 := pow_add X 64 64

theorem fieldPoly_eq : fieldPoly = X ^ 128 + X ^ 7 + X ^ 2 + X + 1 := by
  rw [fieldPoly, tailPoly, X_pow_128]
  simp only [add_assoc]

theorem widePoly_mk (low high : Block) :
    widePoly (low, high) = low.poly + X ^ 128 * high.poly := by
  rw [widePoly_eq, X_pow_128, mul_assoc]

/-- **The reduction gives the remainder**, which is the only polynomial of its degree in its
class. -/
theorem eq_gfReduce_iff (low high : Block) (r : (ZMod 2)[X]) :
    r = (gfReduce low high).poly ↔
      r.degree < 128 ∧ fieldPoly ∣ low.poly + X ^ 128 * high.poly - r := by
  have hdvd := dvd_gfReduce low high
  rw [widePoly_mk] at hdvd
  constructor
  · rintro rfl
    exact ⟨degree_poly_lt _, hdvd⟩
  · rintro ⟨hdegree, hr⟩
    have hdiff : fieldPoly ∣ r - (gfReduce low high).poly := by
      have hsub := dvd_sub hdvd hr
      rwa [sub_sub_sub_cancel_left] at hsub
    have hlt : (r - (gfReduce low high).poly).degree < fieldPoly.degree := by
      rw [degree_fieldPoly]
      exact lt_of_le_of_lt (degree_sub_le _ _) (max_lt hdegree (degree_poly_lt _))
    exact sub_eq_zero.mp (eq_zero_of_dvd_of_degree_lt hdiff hlt)

section Laws

variable (a b c : Block)

theorem gfMul_assoc : (a.gfMul b).gfMul c = a.gfMul (b.gfMul c) := by
  apply mk_poly_injective
  simp only [mk_gfMul, mul_assoc]

theorem gfMul_comm : a.gfMul b = b.gfMul a := by
  apply mk_poly_injective
  rw [mk_gfMul, mk_gfMul, mul_comm]

theorem gfMul_xor : a.gfMul (b ^^^ c) = a.gfMul b ^^^ a.gfMul c := by
  apply mk_poly_injective
  simp only [mk_gfMul, poly_xor, map_add, mul_add]

theorem one_gfMul : one.gfMul a = a := by
  apply mk_poly_injective
  rw [mk_gfMul, poly_one, map_one, one_mul]

end Laws

section Powers

/-- Squaring and multiplying: the accumulator is multiplied by the power that is left. -/
theorem mk_gfPowLoop (acc base : Block) (e : Nat) :
    AdjoinRoot.mk fieldPoly (gfPowLoop acc base e).poly
      = AdjoinRoot.mk fieldPoly acc.poly * AdjoinRoot.mk fieldPoly base.poly ^ e := by
  fun_induction gfPowLoop acc base e with
  | case1 acc base => rw [pow_zero, mul_one]
  | case2 acc base e he ih =>
    rw [dite_eq_ite] at ih
    rw [ih, mk_gfMul]
    have hsplit := Nat.div_add_mod e 2
    split
    · next hodd =>
        rw [mk_gfMul, ← pow_two, ← pow_mul, mul_assoc, ← pow_succ', ← hodd, hsplit]
    · next heven =>
        have hmod : e % 2 = 0 := Nat.mod_two_ne_one.mp heven
        rw [hmod, Nat.add_zero] at hsplit
        rw [← pow_two, ← pow_mul, hsplit]

theorem mk_gfPow (b : Block) (e : Nat) : AdjoinRoot.mk fieldPoly (b.gfPow e).poly
    = AdjoinRoot.mk fieldPoly b.poly ^ e := by
  rw [gfPow, mk_gfPowLoop, poly_one, map_one, one_mul]

theorem mk_iterate_gfMul (b : Block) (e : Nat) :
    AdjoinRoot.mk fieldPoly (b.gfMul^[e] one).poly = AdjoinRoot.mk fieldPoly b.poly ^ e := by
  induction e with
  | zero => rw [Function.iterate_zero_apply, poly_one, map_one, pow_zero]
  | succ e ih => rw [Function.iterate_succ_apply', mk_gfMul, ih, pow_succ']

/-- **A power is a product of that many factors.** -/
theorem gfPow_eq_iterate (b : Block) (e : Nat) : b.gfPow e = b.gfMul^[e] one := by
  apply mk_poly_injective
  rw [mk_gfPow, mk_iterate_gfMul]

end Powers

example : (ofNat 0x19831239123916248127031273012381).gfMul
    (ofNat 0xabcdef0123456789abcdef0123456789) = ofNat 0x63a033d0ed643e85153c50f4268a7d9 := by
  decide +kernel

section Inverses

/-- The quotient has as many elements as there are blocks. -/
theorem natCard_quotient : Nat.card (AdjoinRoot fieldPoly) = 2 ^ 128 := by
  have hne := irreducible_fieldPoly.ne_zero
  have hdegree : fieldPoly.natDegree = 128 := natDegree_eq_of_degree_eq_some degree_fieldPoly
  have := (AdjoinRoot.powerBasis hne).finite
  rw [Module.natCard_eq_pow_finrank (K := ZMod 2), Nat.card_zmod,
    (AdjoinRoot.powerBasis hne).finrank, AdjoinRoot.powerBasis_dim, hdegree]

theorem mk_poly_ne_zero {b : Block} (h : b ≠ zero) : AdjoinRoot.mk fieldPoly b.poly ≠ 0 := by
  intro hzero
  apply h
  apply mk_poly_injective
  rw [hzero, poly_zero, map_zero]

/-- The power `2 ^ 128 - 2` of a block other than zero is its inverse. -/
theorem gfMul_gfPow {b : Block} (h : b ≠ zero) : b.gfMul (b.gfPow (2 ^ 128 - 2)) = one := by
  have : Fact (Irreducible fieldPoly) := ⟨irreducible_fieldPoly⟩
  have : Finite (AdjoinRoot fieldPoly) :=
    Nat.finite_of_card_ne_zero (natCard_quotient ▸ Nat.two_pow_pos 128 |>.ne')
  let _ := Fintype.ofFinite (AdjoinRoot fieldPoly)
  have hpow := FiniteField.pow_card_sub_one_eq_one _ (mk_poly_ne_zero h)
  rw [Fintype.card_eq_nat_card, natCard_quotient] at hpow
  apply mk_poly_injective
  rw [mk_gfMul, mk_gfPow, ← pow_succ', poly_one, map_one, ← hpow,
    show 2 ^ 128 - 2 + 1 = 2 ^ 128 - 1 by rfl]

theorem gfInverse?_of_ne {b : Block} (h : b ≠ zero) :
    ∃ i, b.gfInverse? = some i ∧ b.gfMul i = one :=
  ⟨_, if_neg h, gfMul_gfPow h⟩

theorem gfInverse?_eq_none_iff {b : Block} : b.gfInverse? = none ↔ b = zero := by
  constructor
  · intro hnone
    by_contra h
    obtain ⟨i, hi, -⟩ := gfInverse?_of_ne h
    rw [hi] at hnone
    cases hnone
  · rintro rfl
    exact if_pos rfl

end Inverses

end Block

namespace Gf128

theorem inverse?_of_ne {x : Gf128} (h : x ≠ 0) :
    ∃ y, ShareField.inverse? x = some y ∧ x * y = 1 := by
  have hblock : x.block ≠ Block.zero := fun hzero => h (congrArg mk hzero)
  obtain ⟨i, hi, hone⟩ := Block.gfInverse?_of_ne hblock
  exact ⟨⟨i⟩, congrArg (Option.map mk) hi, congrArg mk hone⟩

/-- Only the key zero gives different elements the same tag. -/
theorem eq_of_mul_eq {key x y : Gf128} (h : key * x = key * y) : key = 0 ∨ x = y := by
  have hzero : key * (x - y) = 0 := by rw [mul_sub, h, sub_self]
  rcases mul_eq_zero hzero with hkey | hdiff
  · exact .inl hkey
  · exact .inr (sub_eq_zero.mp hdiff)

theorem lift_injective {x y : Gf2} (h : (Lift.lift x : Gf128) = Lift.lift y) : x = y := by
  rcases x with ⟨_ | _⟩ <;> rcases y with ⟨_ | _⟩
  · rfl
  · cases h
  · cases h
  · rfl

end Gf128

end Beaver
