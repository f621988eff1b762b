import Mathlib
import Beaver.Block.Polynomial
import Beaver.Proofs.BlockBits

/-!
# Carry-less products are products of polynomials

The bits of a number are the coefficients of a polynomial over the field with two
elements.  Exclusive or is then addition, a shift is multiplication by a power of `X`,
and the carry-less product of two blocks, low and high half together, is the product
of their polynomials (`Block.widePoly_clmul`).  So it is commutative, distributes over
exclusive or, and is zero only if one of the factors is.
-/

namespace Beaver

open Polynomial

/-- The polynomial whose coefficients are the bits of a number. -/
noncomputable def bitPoly (x : Nat) : (ZMod 2)[X] :=
  ∑ i ∈ Finset.range x.size, monomial i (if x.testBit i then 1 else 0)

theorem coeff_bitPoly (x i : Nat) : (bitPoly x).coeff i = if x.testBit i then 1 else 0 := by
  simp only [bitPoly, finsetSum_coeff, coeff_monomial, Finset.sum_ite_eq', Finset.mem_range]
  by_cases hi : i < x.size
  · rw [if_pos hi]
  · have hbit : x.testBit i = false :=
      Nat.testBit_lt_two_pow (Nat.size_le.mp (Nat.le_of_not_lt hi))
    simp [hi, hbit]

theorem bitPoly_injective {x y : Nat} (h : bitPoly x = bitPoly y) : x = y := by
  apply Nat.eq_of_testBit_eq
  intro i
  have hcoeff := congrArg (fun p : (ZMod 2)[X] => p.coeff i) h
  simp only [coeff_bitPoly] at hcoeff
  cases hx : x.testBit i <;> cases hy : y.testBit i <;> simp_all

@[simp]
theorem bitPoly_zero : bitPoly 0 = 0 := by
  ext i
  simp [coeff_bitPoly]

@[simp]
theorem bitPoly_one : bitPoly 1 = 1 := by
  ext i
  simp only [coeff_bitPoly, coeff_one, Nat.testBit_one_eq_true_iff_self_eq_zero]

theorem bitPoly_xor (x y : Nat) : bitPoly (x ^^^ y) = bitPoly x + bitPoly y := by
  ext i
  rw [coeff_add, coeff_bitPoly, coeff_bitPoly, coeff_bitPoly, Nat.testBit_xor]
  cases x.testBit i <;> cases y.testBit i <;> decide

theorem bitPoly_two_pow_mul_add (x : Nat) {k y : Nat} (hy : y < 2 ^ k) :
    bitPoly (2 ^ k * x + y) = X ^ k * bitPoly x + bitPoly y := by
  ext i
  rw [coeff_add, coeff_X_pow_mul', coeff_bitPoly, coeff_bitPoly, coeff_bitPoly,
    Nat.testBit_two_pow_mul_add _ hy]
  by_cases hi : i < k
  · have hle : ¬ k ≤ i := by omega
    simp [hi, hle]
  · have hbit : y.testBit i = false := testBit_of_lt_of_le hy (by omega)
    have hle : k ≤ i := by omega
    simp [hi, hle, hbit]

theorem bitPoly_two_pow (k : Nat) : bitPoly (2 ^ k) = X ^ k := by
  have hshift := bitPoly_two_pow_mul_add 1 (Nat.two_pow_pos k)
  simpa using hshift

/-- The polynomial of the low bits of a number, bit by bit. -/
theorem sum_bitPoly (x n : Nat) :
    ((List.range n).map fun i => if x.testBit i then bitPoly (2 ^ i) else 0).sum
      = bitPoly (x % 2 ^ n) := by
  induction n with
  | zero => simp [Nat.mod_one]
  | succ n ih =>
    rw [List.range_succ, List.map_append, List.sum_append, ih, Nat.mod_pow_succ, Nat.add_comm,
      bitPoly_two_pow_mul_add _ (Nat.mod_lt x (Nat.two_pow_pos n)), List.map_singleton,
      List.sum_singleton, bitPoly_two_pow, Nat.testBit_eq_decide_div_mod_eq, add_comm]
    rcases Nat.mod_two_eq_zero_or_one (x / 2 ^ n) with h | h
    · simp [h]
    · simp [h]

theorem bitPoly_two_mul (x : Nat) : bitPoly (2 * x) = X * bitPoly x := by
  have hshift := bitPoly_two_pow_mul_add x (k := 1) (y := 0) (by omega)
  simpa using hshift

namespace Block

/-- The number that two words stand for. -/
def wide (lo hi : UInt64) : Nat := 2 ^ 64 * hi.toNat + lo.toNat

theorem toNat_double (x : UInt64) : (x <<< 1).toNat = 2 * x.toNat % 2 ^ 64 := by
  simp [UInt64.toNat_shiftLeft, Nat.shiftLeft_eq, Nat.mul_comm]

theorem toNat_top (x : UInt64) : (x >>> 63).toNat = x.toNat / 2 ^ 63 := by
  simp [UInt64.toNat_shiftRight, Nat.shiftRight_eq_div_pow]

/-- Doubling a number in two words. -/
theorem wide_double {lo hi : UInt64} (h : 2 * wide lo hi < 2 ^ 128) :
    wide (lo <<< 1) ((hi <<< 1) ||| (lo >>> 63)) = 2 * wide lo hi := by
  have hlo := lo.toNat_lt
  have hhi : hi.toNat < 2 ^ 63 := by
    rw [wide] at h
    omega
  have hhigh : ((hi <<< 1) ||| (lo >>> 63)).toNat = 2 * hi.toNat + lo.toNat / 2 ^ 63 := by
    have hshift : (hi <<< 1).toNat = 2 ^ 1 * hi.toNat := by
      rw [toNat_double]
      omega
    rw [UInt64.toNat_or, hshift, toNat_top, ← Nat.two_pow_add_eq_or_of_lt (by omega)]
  rw [wide, toNat_double, hhigh, wide]
  omega

/-- Adding a word to the low half of a number in two words. -/
theorem wide_xor (lo hi a : UInt64) : wide (lo ^^^ a) hi = wide lo hi ^^^ a.toNat := by
  apply Nat.eq_of_testBit_eq
  intro i
  have ha : a.toNat < 2 ^ 64 := a.toNat_lt
  rw [wide, wide, UInt64.toNat_xor, Nat.testBit_two_pow_mul_add _ (Nat.xor_lt_two_pow lo.toNat_lt ha),
    Nat.testBit_xor, Nat.testBit_xor, Nat.testBit_two_pow_mul_add _ lo.toNat_lt]
  by_cases hi' : i < 64
  · simp [hi']
  · have hbit : a.toNat.testBit i = false := testBit_of_lt_of_le ha (by omega)
    simp [hi', hbit]

/-- The bits of a word from the top down: the first one, then those of the doubled word. -/
theorem bitPoly_top (b : UInt64) {n : Nat} (hn : n < 64) :
    bitPoly (b.toNat / 2 ^ (63 - n))
      = (if b >>> 63 == 1 then X ^ n else 0) + bitPoly ((b <<< 1).toNat / 2 ^ (64 - n)) := by
  have hb := b.toNat_lt
  obtain ⟨t, c, hc, hsplit⟩ : ∃ t c, c < 2 ^ 63 ∧ b.toNat = 2 ^ 63 * t + c :=
    ⟨b.toNat / 2 ^ 63, b.toNat % 2 ^ 63, Nat.mod_lt _ (by omega), (Nat.div_add_mod _ _).symm⟩
  have hpow : 2 ^ 63 = 2 ^ (63 - n) * 2 ^ n := by
    rw [← Nat.pow_add, Nat.sub_add_cancel (by omega)]
  have htop : (b >>> 63 == 1) = decide (t = 1) := by
    rw [Bool.eq_iff_iff, beq_iff_eq, ← UInt64.toNat_inj, decide_eq_true_iff]
    rw [toNat_top, UInt64.toNat_one]
    omega
  have hleft : b.toNat / 2 ^ (63 - n) = 2 ^ n * t + c / 2 ^ (63 - n) := by
    rw [hsplit, hpow, Nat.mul_assoc, Nat.mul_add_div (Nat.two_pow_pos _)]
  have hright : (b <<< 1).toNat / 2 ^ (64 - n) = c / 2 ^ (63 - n) := by
    have hdouble : (b <<< 1).toNat = 2 * c := by
      rw [toNat_double]
      omega
    rw [hdouble, show 64 - n = 63 - n + 1 by omega, Nat.pow_succ', Nat.mul_div_mul_left _ _ (by omega)]
  have hrest : c / 2 ^ (63 - n) < 2 ^ n := by
    rw [Nat.div_lt_iff_lt_mul (Nat.two_pow_pos _), Nat.mul_comm, ← hpow]
    exact hc
  rw [htop, hleft, hright, bitPoly_two_pow_mul_add t hrest]
  have ht : t = 0 ∨ t = 1 := by omega
  rcases ht with rfl | rfl
  · simp
  · simp

/-- The loop multiplies by the top bits of the second factor. -/
theorem bitPoly_clmulWordLoop (a : UInt64) (n : Nat) (b lo hi : UInt64) (hn : n ≤ 64)
    (hacc : wide lo hi < 2 ^ (128 - n)) :
    bitPoly (wide (clmulWordLoop a n b lo hi).1 (clmulWordLoop a n b lo hi).2)
      = X ^ n * bitPoly (wide lo hi) + bitPoly a.toNat * bitPoly (b.toNat / 2 ^ (64 - n)) := by
  induction n generalizing b lo hi with
  | zero =>
    have htop : b.toNat / 2 ^ 64 = 0 := Nat.div_eq_of_lt b.toNat_lt
    rw [Nat.sub_zero, htop]
    simp [clmulWordLoop]
  | succ n ih =>
    have hdouble : 2 * wide lo hi < 2 ^ (128 - n) := by
      have hpow : 2 ^ (128 - n) = 2 * 2 ^ (128 - (n + 1)) := by
        rw [← Nat.pow_succ', show (128 - (n + 1)).succ = 128 - n by omega]
      omega
    have hfits : 2 * wide lo hi < 2 ^ 128 :=
      Nat.lt_of_lt_of_le hdouble (Nat.pow_le_pow_right (by omega) (by omega))
    have ha : a.toNat < 2 ^ (128 - n) :=
      Nat.lt_of_lt_of_le a.toNat_lt (Nat.pow_le_pow_right (by omega) (by omega))
    rw [show 64 - (n + 1) = 63 - n by omega, bitPoly_top b (by omega)]
    by_cases htop : (b >>> 63 == 1) = true
    · have hwide : wide ((lo <<< 1) ^^^ a) ((hi <<< 1) ||| (lo >>> 63))
          = (2 * wide lo hi) ^^^ a.toNat := by
        rw [wide_xor, wide_double hfits]
      simp only [clmulWordLoop, htop, if_true]
      rw [ih _ _ _ (by omega) (by rw [hwide]; exact Nat.xor_lt_two_pow hdouble ha), hwide,
        bitPoly_xor, bitPoly_two_mul]
      ring
    · simp only [clmulWordLoop, htop, Bool.false_eq_true, if_false]
      rw [ih _ _ _ (by omega) (by rw [wide_double hfits]; exact hdouble), wide_double hfits,
        bitPoly_two_mul]
      ring

/-- The carry-less product of two words is the product of their polynomials. -/
theorem bitPoly_clmulWord (a b : UInt64) :
    bitPoly (wide (clmulWord a b).1 (clmulWord a b).2) = bitPoly a.toNat * bitPoly b.toNat := by
  have hloop := bitPoly_clmulWordLoop a 64 b 0 0 (by omega) (by decide)
  have hzero : wide 0 0 = 0 := rfl
  simpa [clmulWord, hzero] using hloop

/-- The same, with the two words of the product apart. -/
theorem bitPoly_words_clmulWord (a b : UInt64) :
    bitPoly (clmulWord a b).1.toNat + X ^ 64 * bitPoly (clmulWord a b).2.toNat
      = bitPoly a.toNat * bitPoly b.toNat := by
  rw [← bitPoly_clmulWord, wide, bitPoly_two_pow_mul_add _ (clmulWord a b).1.toNat_lt]
  exact add_comm _ _

/-- The polynomial of a block. -/
noncomputable def poly (b : Block) : (ZMod 2)[X] := bitPoly b.toNat

/-- The polynomial of a product that is not yet reduced. -/
noncomputable def widePoly (p : Block × Block) : (ZMod 2)[X] :=
  bitPoly (2 ^ 128 * p.2.toNat + p.1.toNat)

theorem poly_mk (lo hi : UInt64) :
    poly ⟨lo, hi⟩ = bitPoly lo.toNat + X ^ 64 * bitPoly hi.toNat := by
  rw [poly, toNat_eq, Nat.add_comm, bitPoly_two_pow_mul_add _ lo.toNat_lt, add_comm]

theorem poly_injective {a b : Block} (h : a.poly = b.poly) : a = b :=
  toNat_injective (bitPoly_injective h)

@[simp]
theorem poly_zero : poly zero = 0 := bitPoly_zero

@[simp]
theorem poly_xor (a b : Block) : poly (a ^^^ b) = a.poly + b.poly := by
  have hxor : (a ^^^ b) = ⟨a.lo ^^^ b.lo, a.hi ^^^ b.hi⟩ := rfl
  rw [hxor, poly_mk, UInt64.toNat_xor, UInt64.toNat_xor, bitPoly_xor, bitPoly_xor]
  change _ = poly ⟨a.lo, a.hi⟩ + poly ⟨b.lo, b.hi⟩
  rw [poly_mk, poly_mk]
  ring

theorem widePoly_injective {p q : Block × Block} (h : widePoly p = widePoly q) : p = q := by
  have hsum := bitPoly_injective h
  have hp := p.1.toNat_lt
  have hq := q.1.toNat_lt
  have h₁ : p.1.toNat = q.1.toNat := by omega
  have h₂ : p.2.toNat = q.2.toNat := by omega
  exact Prod.ext (toNat_injective h₁) (toNat_injective h₂)

theorem widePoly_eq (p : Block × Block) :
    widePoly p = p.1.poly + X ^ 64 * (X ^ 64 * p.2.poly) := by
  have hsplit : 2 ^ 128 * p.2.toNat + p.1.toNat
      = 2 ^ 64 * (2 ^ 64 * p.2.toNat + p.1.hi.toNat) + p.1.lo.toNat := by
    rw [toNat_eq, toNat_eq]
    ring
  have hlow : p.1.poly = bitPoly p.1.lo.toNat + X ^ 64 * bitPoly p.1.hi.toNat := poly_mk _ _
  rw [widePoly, hsplit, bitPoly_two_pow_mul_add _ p.1.lo.toNat_lt,
    bitPoly_two_pow_mul_add _ p.1.hi.toNat_lt, hlow, poly]
  generalize (X : (ZMod 2)[X]) ^ 64 = s
  ring

/-- **The carry-less product of two blocks is the product of their polynomials.** -/
theorem widePoly_clmul (a b : Block) : widePoly (a.clmul b) = a.poly * b.poly := by
  have hll := bitPoly_words_clmulWord a.lo b.lo
  have hhh := bitPoly_words_clmulWord a.hi b.hi
  have hlh := bitPoly_words_clmulWord a.lo b.hi
  have hhl := bitPoly_words_clmulWord a.hi b.lo
  have ha : a.poly = bitPoly a.lo.toNat + X ^ 64 * bitPoly a.hi.toNat := poly_mk a.lo a.hi
  have hb : b.poly = bitPoly b.lo.toNat + X ^ 64 * bitPoly b.hi.toNat := poly_mk b.lo b.hi
  rw [widePoly_eq, clmul, ha, hb]
  simp only [poly_mk, UInt64.toNat_xor, bitPoly_xor]
  -- the high powers stand for one element from here on
  generalize (X : (ZMod 2)[X]) ^ 64 = s at *
  linear_combination hll + s * (hlh + hhl) + s * s * hhh

end Block

end Beaver
