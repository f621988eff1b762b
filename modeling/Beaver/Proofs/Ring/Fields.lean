import Mathlib
import Beaver.Proofs.Ring.Instances

/-!
# The fields have no zero divisors

The two Mersenne numbers are prime, and the polynomial behind GF(2^128) is irreducible.
For the latter the powers of `X` decide (`Block.irreducible_of_powerGap`): every irreducible
factor divides `X ^ 2 ^ 128 - X`, so its degree divides 128; and a factor of degree at most
64 would divide `X ^ 2 ^ 64 - X`, which has an inverse modulo the polynomial.
-/

namespace Beaver

open Polynomial ShareRing

/-- What is seen inside a domain has no zero divisors. -/
theorem mul_eq_zero_of_injective {α R : Type} [Mul α] [Zero α] [CommRing R] [IsDomain R]
    {f : α → R} (hf : Function.Injective f) (hmul : ∀ a b, f (a * b) = f a * f b)
    (hzero : f 0 = 0) {a b : α} (h : a * b = 0) : a = 0 ∨ b = 0 := by
  have hproduct : f a * f b = 0 := by rw [← hmul, h, hzero]
  rcases mul_eq_zero.mp hproduct with ha | hb
  · exact .inl (hf (ha.trans hzero.symm))
  · exact .inr (hf (hb.trans hzero.symm))

namespace Block

section Squaring

/-- The bits of a number, spread to the even positions. -/
def spread : Nat → Nat → Nat
  | 0, _ => 0
  | n + 1, x => 4 * spread n (x / 2) + x % 2

/-- Spreading the bits squares the polynomial. -/
theorem bitPoly_spread {n x : Nat} (hx : x < 2 ^ n) : bitPoly (spread n x) = bitPoly x ^ 2 := by
  induction n generalizing x with
  | zero =>
    obtain rfl : x = 0 := by omega
    simp [spread]
  | succ n ih =>
    have hbit : bitPoly (x % 2) ^ 2 = bitPoly (x % 2) := by
      rcases Nat.mod_two_eq_zero_or_one x with h | h
      · simp [h]
      · simp [h]
    have hhalf : bitPoly x = X * bitPoly (x / 2) + bitPoly (x % 2) := by
      have hsplit := bitPoly_two_pow_mul_add (k := 1) (x / 2) (Nat.mod_lt x (by decide))
      rwa [pow_one, pow_one, Nat.div_add_mod] at hsplit
    have hspread := bitPoly_two_pow_mul_add (k := 2) (spread n (x / 2)) (y := x % 2) (by omega)
    rw [spread, show 4 = 2 ^ 2 by rfl, hspread, ih (by omega), hhalf, CharTwo.add_sq, hbit]
    ring

/-- The high part of a number, folded back once. -/
def fold (x : Nat) : Nat :=
  let h := x / 2 ^ 128
  x % 2 ^ 128 ^^^ (2 ^ 7 * h ^^^ 2 ^ 2 * h ^^^ 2 ^ 1 * h ^^^ h)

theorem mk_bitPoly_fold (x : Nat) :
    AdjoinRoot.mk fieldPoly (bitPoly (fold x)) = AdjoinRoot.mk fieldPoly (bitPoly x) := by
  have hshift : ∀ k, bitPoly (2 ^ k * (x / 2 ^ 128)) = X ^ k * bitPoly (x / 2 ^ 128) := by
    intro k
    have h := bitPoly_two_pow_mul_add (k := k) (x / 2 ^ 128) (Nat.two_pow_pos k)
    rwa [Nat.add_zero, bitPoly_zero, add_zero] at h
  have hsplit := bitPoly_two_pow_mul_add (k := 64 + 64) (x / 2 ^ 128) (Nat.mod_lt x (by decide))
  rw [Nat.div_add_mod, pow_add] at hsplit
  refine AdjoinRoot.mk_eq_mk.mpr ⟨-bitPoly (x / 2 ^ 128), ?_⟩
  rw [hsplit, fold]
  simp only [bitPoly_xor, hshift]
  rw [fieldPoly, tailPoly]
  generalize (X : (ZMod 2)[X]) ^ 64 = s
  linear_combination (bitPoly (x / 2 ^ 128) * (X ^ 7 + X ^ 2 + X + 1)) * CharTwo.two_eq_zero (R := (ZMod 2)[X])

theorem fold_lt {k x : Nat} (hk : 128 ≤ k) (hx : x < 2 ^ (128 + (k - 7))) : fold x < 2 ^ k := by
  have hhigh : x / 2 ^ 128 < 2 ^ (k - 7) :=
    Nat.div_lt_of_lt_mul (by rwa [← Nat.pow_add])
  have hshift : ∀ j ≤ 7, 2 ^ j * (x / 2 ^ 128) < 2 ^ k := by
    intro j hj
    calc 2 ^ j * (x / 2 ^ 128) ≤ 2 ^ 7 * (x / 2 ^ 128) :=
          Nat.mul_le_mul_right _ (Nat.pow_le_pow_right (by decide) hj)
      _ < 2 ^ 7 * 2 ^ (k - 7) := Nat.mul_lt_mul_of_pos_left hhigh (by decide)
      _ = 2 ^ k := by rw [← Nat.pow_add, Nat.add_sub_cancel' (by omega)]
  have hlow : x % 2 ^ 128 < 2 ^ k :=
    Nat.lt_of_lt_of_le (Nat.mod_lt x (by decide)) (Nat.pow_le_pow_right (by decide) hk)
  have hself := hshift 0 (by decide)
  rw [Nat.pow_zero, Nat.one_mul] at hself
  exact Nat.xor_lt_two_pow hlow (Nat.xor_lt_two_pow (Nat.xor_lt_two_pow (Nat.xor_lt_two_pow
    (hshift 7 (by decide)) (hshift 2 (by decide))) (hshift 1 (by decide))) hself)

theorem spread_lt (n x : Nat) : spread n x < 4 ^ n := by
  induction n generalizing x with
  | zero => exact Nat.one_pos
  | succ n ih =>
    have hrest := ih (x / 2)
    rw [spread, Nat.pow_succ]
    omega

/-- The number of a polynomial after it was squared and reduced `n` times. -/
def squaredTimes : Nat → Nat → Nat
  | 0, x => x
  | n + 1, x => squaredTimes n (fold (fold (spread 128 x)))

/-- **Squaring again and again**, modulo the field polynomial. -/
theorem mk_bitPoly_squaredTimes (n : Nat) {x : Nat} (hx : x < 2 ^ 128) :
    AdjoinRoot.mk fieldPoly (bitPoly (squaredTimes n x))
      = AdjoinRoot.mk fieldPoly (bitPoly x) ^ 2 ^ n := by
  induction n generalizing x with
  | zero => rw [squaredTimes, pow_zero, pow_one]
  | succ n ih =>
    have hspread : spread 128 x < 2 ^ (128 + (135 - 7)) :=
      Nat.lt_of_lt_of_eq (spread_lt 128 x) (by decide)
    have hlt : fold (fold (spread 128 x)) < 2 ^ 128 :=
      fold_lt (by decide) (Nat.lt_of_lt_of_le (fold_lt (by decide) hspread) (by decide))
    rw [squaredTimes, ih hlt, mk_bitPoly_fold, mk_bitPoly_fold, bitPoly_spread hx, map_pow, ← pow_mul,
      pow_succ, mul_comm]

end Squaring

/-- How far `X` is from its power `2 ^ n`. -/
noncomputable def powerGap (n : Nat) : (ZMod 2)[X] := X ^ 2 ^ n - X

/-- The degree of an irreducible polynomial decides which of these it divides. -/
theorem natDegree_dvd_iff {g : (ZMod 2)[X]} (hg : Irreducible g) (n : Nat) :
    g.natDegree ∣ n ↔ g ∣ powerGap n := by
  have h := hg.natDegree_dvd_iff_dvd_X_pow_card_pow_sub_X (n := n)
  rwa [Nat.card_zmod] at h

/-- **A test for irreducibility**, for polynomials whose degree is a power of two: the degree
of an irreducible factor is one as well, and were it less than the whole, the factor would
divide two polynomials that are coprime. -/
theorem irreducible_of_powerGap {f : (ZMod 2)[X]} {k : Nat} (hdegree : f.natDegree = 2 ^ (k + 1))
    (hfull : f ∣ powerGap (2 ^ (k + 1))) (hhalf : IsCoprime f (powerGap (2 ^ k))) :
    Irreducible f := by
  have hpos : 0 < f.natDegree := hdegree ▸ Nat.two_pow_pos _
  have hunit : ¬ IsUnit f := fun hunit => by
    rw [natDegree_eq_zero_of_isUnit hunit] at hpos
    exact Nat.lt_irrefl 0 hpos
  have hne : f ≠ 0 := ne_zero_of_natDegree_gt hpos
  obtain ⟨g, hg, hdvd⟩ := WfDvdMonoid.exists_irreducible_factor hunit hne
  have hpower := (natDegree_dvd_iff hg _).mpr (hdvd.trans hfull)
  obtain ⟨m, hm, hgm⟩ := (Nat.dvd_prime_pow Nat.prime_two).mp hpower
  rcases Nat.lt_or_eq_of_le hm with hlt | rfl
  · have hgap : g ∣ powerGap (2 ^ k) :=
      (natDegree_dvd_iff hg _).mp (hgm ▸ Nat.pow_dvd_pow 2 (Nat.lt_succ_iff.mp hlt))
    exact absurd (hhalf.isUnit_of_dvd' hdvd hgap) hg.not_isUnit
  · have hassociated : Associated g f :=
      associated_of_dvd_of_natDegree_le hdvd hne (Nat.le_of_eq (hdegree.trans hgm.symm))
    exact hassociated.irreducible hg

theorem mk_powerGap (n : Nat) : AdjoinRoot.mk fieldPoly (powerGap n)
    = AdjoinRoot.mk fieldPoly (bitPoly (squaredTimes n 2 ^^^ 2)) := by
  have hX : bitPoly 2 = X := by
    have h := bitPoly_two_pow 1
    rwa [pow_one, pow_one] at h
  rw [bitPoly_xor, map_add, mk_bitPoly_squaredTimes n (by decide), hX, ← map_pow, ← map_add,
    powerGap, CharTwo.sub_eq_add]

theorem dvd_powerGap {n : Nat} (h : squaredTimes n 2 = 2) : fieldPoly ∣ powerGap n := by
  rw [← AdjoinRoot.mk_eq_zero, mk_powerGap, h, Nat.xor_self, bitPoly_zero, map_zero]

theorem isCoprime_powerGap {n : Nat} {a b : Block} (ha : a.toNat = squaredTimes n 2 ^^^ 2)
    (h : a.gfMul b = one) : IsCoprime fieldPoly (powerGap n) := by
  have hone : AdjoinRoot.mk fieldPoly (b.poly * powerGap n) = AdjoinRoot.mk fieldPoly 1 := by
    rw [map_mul, mk_powerGap, ← ha, mul_comm]
    exact (mk_gfMul a b).symm.trans (by rw [h, poly_one])
  obtain ⟨p, hp⟩ := AdjoinRoot.mk_eq_mk.mp hone
  exact ⟨-p, b.poly, by linear_combination hp⟩

/-- **The field polynomial is irreducible.** -/
theorem irreducible_fieldPoly : Irreducible fieldPoly := by
  have hdegree : fieldPoly.natDegree = 2 ^ (6 + 1) := natDegree_eq_of_degree_eq_some degree_fieldPoly
  have hfull : squaredTimes (2 ^ (6 + 1)) 2 = 2 := by decide +kernel
  have hhalf : (ofNat 0x61651fea6b5832b944e598a795a299f4).toNat = squaredTimes (2 ^ 6) 2 ^^^ 2 := by
    decide +kernel
  have hinverse : (ofNat 0x61651fea6b5832b944e598a795a299f4).gfMul
      (ofNat 0x9e4af928ddbc838a41a8cafd2c95b018) = one := by
    decide +kernel
  exact irreducible_of_powerGap hdegree (dvd_powerGap hfull) (isCoprime_powerGap hhalf hinverse)

end Block

theorem prime_mersenne61 : (Nat.pow 2 61 - 1).Prime :=
  lucas_lehmer_sufficiency 61 (by norm_num) (by norm_num)

theorem prime_mersenne127 : (Nat.pow 2 127 - 1).Prime :=
  lucas_lehmer_sufficiency 127 (by norm_num) (by norm_num)

theorem Residue.mul_eq_zero {m : Nat} [Modulus m] (hm : m.Prime) {a b : Residue m}
    (h : a * b = 0) : a = 0 ∨ b = 0 := by
  have : Fact m.Prime := ⟨hm⟩
  exact mul_eq_zero_of_injective toZMod_injective
    (fun a b => (toZMod_ofNat _).trans (Nat.cast_mul _ _)) ((toZMod_ofNat 0).trans Nat.cast_zero) h

theorem Gf128.mul_eq_zero {a b : Gf128} (h : a * b = 0) : a = 0 ∨ b = 0 := by
  have : Fact (Irreducible Block.fieldPoly) := ⟨Block.irreducible_fieldPoly⟩
  exact mul_eq_zero_of_injective toQuotient_injective
    (fun a b => Block.mk_gfMul a.block b.block) ((congrArg _ Block.poly_zero).trans (map_zero _)) h

theorem Gf2.mul_eq_zero {a b : Gf2} (h : a * b = 0) : a = 0 ∨ b = 0 := by
  rcases a with ⟨_ | _⟩
  · exact .inl rfl
  · rcases b with ⟨_ | _⟩
    · exact .inr rfl
    · cases h

/-- **A ring with inverses has no zero divisors.** -/
theorem RingName.mul_eq_zero {r : RingName} (hr : r.has .invert = true) {a b : r.Carrier}
    (h : a * b = 0) : a = 0 ∨ b = 0 := by
  cases r with
  | mersenne61 => exact Residue.mul_eq_zero prime_mersenne61 h
  | mersenne127 => exact Residue.mul_eq_zero prime_mersenne127 h
  | gf128 => exact Gf128.mul_eq_zero h
  | gf2 => exact Gf2.mul_eq_zero h
  | word64 => cases hr
  | word128 => cases hr

end Beaver
