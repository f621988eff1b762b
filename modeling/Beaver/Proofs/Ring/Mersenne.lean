import Mathlib
import Beaver.Proofs.Ring.Fields
import Beaver.Proofs.Ring.WordArithmetic

/-!
# The Mersenne fields in machine words

Words that are reduced by folding hold the residues of a prime field.  Every operation on
them is exact (`mersenne_exact`): it gives the residue of the integer result, and no sum,
difference or product on the way leaves its word.

Inverses and square roots are powers, found by squaring and multiplying
(`inverse_sqrt_complete`).  The inverse is Fermat's theorem.  Both moduli leave the remainder 3
modulo 4, so that the power `(p + 1) / 4` of `y * y` has the square `y ^ (p + 1) = y * y`.
-/

namespace Beaver

open ShareRing

section Exact

/-- The residue of an integer. -/
def canonical (p : Nat) (z : Int) : Nat := (z % p).toNat

theorem canonical_natCast (p n : Nat) : canonical p n = n % p := by
  rw [canonical, ← Int.natCast_mod, Int.toNat_natCast]

/-- Adding the modulus leaves the residue. -/
theorem canonical_add_self (p : Nat) (z : Int) : canonical p (z + p) = canonical p z := by
  rw [canonical, canonical, Int.add_emod_right]

theorem canonical_lt {p : Nat} (hp : 0 < p) (z : Int) : canonical p z < p := by
  have hpos : (0 : Int) < p := by exact_mod_cast hp
  have hnonneg := Int.emod_nonneg z hpos.ne'
  have hlt := Int.emod_lt_of_pos z hpos
  unfold canonical
  omega

/-- Words of a ring are brought to their residues modulo `p`, and on residues every operation
gives the residue of the integer result.  None of this is a fault. -/
structure ExactModulo (r : RingName) (p : Nat) : Prop where
  new (x : Nat) : x < 2 ^ r.width → r.new? x = some (canonical p x)
  ofBlock (b : Block) : r.ofBlock? b = some (canonical p b.toNat)
  add (a b : Nat) : a < p → b < p → r.add? a b = some (canonical p (a + b))
  sub (a b : Nat) : a < p → b < p → r.sub? a b = some (canonical p (a - b))
  neg (a : Nat) : a < p → r.neg? a = some (canonical p (-a))
  mul (a b : Nat) : a < p → b < p → r.mul? a b = some (canonical p (a * b))
  sum (xs : List Nat) : (∀ x ∈ xs, x < p) → r.sum? xs = some (canonical p xs.sum)

variable {r : RingName} {p : Nat}

/-- Sums are exact if every addition is. -/
theorem foldlM_add? (hadd : ∀ a b : Nat, a < p → b < p → r.add? a b = some ((a + b) % p))
    {xs : List Nat} (hxs : ∀ x ∈ xs, x < p) {acc : Nat} (hacc : acc < p) :
    xs.foldlM r.add? acc = some ((acc + xs.sum) % p) := by
  induction xs generalizing acc with
  | nil => simp [Nat.mod_eq_of_lt hacc]
  | cons x xs ih =>
    have hx := hxs x List.mem_cons_self
    have hrest : ∀ y ∈ xs, y < p := fun y hy => hxs y (List.mem_cons_of_mem x hy)
    have hmod : (acc + x) % p < p := Nat.mod_lt _ (by omega)
    rw [List.foldlM_cons, hadd acc x hacc hx]
    simp only [Option.bind_eq_bind, Option.bind_some]
    rw [ih hrest hmod, List.sum_cons, Nat.mod_add_mod, Nat.add_assoc]

/-- Negation is exact if the complement to the modulus is found. -/
theorem canonical_complement {a : Nat} (ha : a < p) : (p - a) % p = canonical p (-a) := by
  have hcast : ((p - a : Nat) : Int) = -(a : Int) + p := by omega
  rw [← canonical_natCast, hcast, canonical_add_self]

/-- What is left to show of a ring: folding, sums, complements and products. -/
theorem ExactModulo.of_residues (hp : 0 < p)
    (hnew : ∀ x < 2 ^ r.width, r.new? x = some (x % p))
    (hblock : ∀ b : Block, r.ofBlock? b = some (b.toNat % p))
    (hadd : ∀ a b : Nat, a < p → b < p → r.add? a b = some ((a + b) % p))
    (hneg : ∀ a < p, r.neg? a = some ((p - a) % p))
    (hmul : ∀ a b : Nat, a < p → b < p → r.mul? a b = some (a * b % p)) : ExactModulo r p where
  new x hx := by rw [hnew x hx, canonical_natCast]
  ofBlock b := by rw [hblock b, canonical_natCast]
  add a b ha hb := by rw [hadd a b ha hb, ← canonical_natCast, Nat.cast_add]
  sub a b ha hb := by
    have hlt : (p - b) % p < p := Nat.mod_lt _ hp
    have hcast : ((a + (p - b) : Nat) : Int) = (a : Int) - b + p := by omega
    rw [RingName.sub?, hneg b hb]
    simp only [Option.bind_eq_bind, Option.bind_some]
    rw [hadd a _ ha hlt, Nat.add_mod_mod, ← canonical_natCast, hcast, canonical_add_self]
  neg a ha := by rw [hneg a ha, canonical_complement ha]
  mul a b ha hb := by rw [hmul a b ha hb, ← canonical_natCast, Nat.cast_mul]
  sum xs hxs := by
    rw [RingName.sum?, foldlM_add? hadd hxs hp, Nat.zero_add, canonical_natCast]

theorem exact61 : ExactModulo .mersenne61 (2 ^ 61 - 1) :=
  .of_residues (by decide) (fun _ hx => reduce61?_eq (hx.trans (by decide)))
    (fun b => reduce61?_eq b.toNat_lt) (fun _ _ => addMod?_eq (by decide)) (fun _ => negMod?_eq)
    fun _ _ => mul61?_eq

theorem exact127 : ExactModulo .mersenne127 (2 ^ 127 - 1) :=
  .of_residues (by decide) (fun _ hx => reduce127?_eq hx) (fun b => reduce127?_eq b.toNat_lt)
    (fun _ _ => addMod?_eq (by decide)) (fun _ => negMod?_eq) fun _ _ => mul127?_eq

/-- **Arithmetic in the Mersenne fields is exact.**  Every word and every block is brought to its
residue, and on residues sums, differences, negatives, products and sums of lists are the
residues of the integer results, all below the modulus; two words of 128 bits have their whole
product in two.  No sum, difference or product on the way leaves its word. -/
theorem mersenne_exact :
    ExactModulo .mersenne61 (2 ^ 61 - 1) ∧ ExactModulo .mersenne127 (2 ^ 127 - 1) ∧
    (∀ z : Int, canonical (2 ^ 61 - 1) z < 2 ^ 61 - 1 ∧ canonical (2 ^ 127 - 1) z < 2 ^ 127 - 1) ∧
    ∀ a b : Nat, a < 2 ^ 128 → b < 2 ^ 128 → ∃ low high, mulWide? a b = some (low, high) ∧
      low < 2 ^ 128 ∧ high < 2 ^ 128 ∧ low + 2 ^ 128 * high = a * b :=
  ⟨exact61, exact127, fun z => ⟨canonical_lt (by decide) z, canonical_lt (by decide) z⟩,
    fun _ _ => mulWide?_eq⟩

/-- At the limits: the modulus itself is folded to zero, the largest residue is its own inverse,
and the largest words have a product that just fits. -/
theorem mersenne_exact_limits :
    RingName.new? .mersenne127 (2 ^ 127 - 1) = some 0 ∧
    RingName.mul? .mersenne127 (2 ^ 127 - 2) (2 ^ 127 - 2) = some 1 ∧
    RingName.sub? .mersenne61 0 (2 ^ 61 - 2) = some 1 ∧
    ∃ low high, mulWide? (2 ^ 128 - 1) (2 ^ 128 - 1) = some (low, high) ∧
      low < 2 ^ 128 ∧ high < 2 ^ 128 ∧ low + 2 ^ 128 * high = (2 ^ 128 - 1) * (2 ^ 128 - 1) := by
  obtain ⟨hsmall, hlarge, -, hwide⟩ := mersenne_exact
  refine ⟨?_, ?_, ?_, hwide _ _ (by decide) (by decide)⟩
  · exact hlarge.new (2 ^ 127 - 1) (by decide)
  · exact hlarge.mul (2 ^ 127 - 2) (2 ^ 127 - 2) (by decide) (by decide)
  · exact hsmall.sub 0 (2 ^ 61 - 2) (by decide) (by decide)

end Exact

namespace Residue

variable {m : Nat} [Modulus m]

theorem toZMod_mul (a b : Residue m) : toZMod (a * b) = toZMod a * toZMod b :=
  (toZMod_ofNat _).trans (Nat.cast_mul _ _)

theorem toZMod_one : toZMod (1 : Residue m) = 1 :=
  (toZMod_ofNat 1).trans Nat.cast_one

theorem toZMod_zero : toZMod (0 : Residue m) = 0 :=
  (toZMod_ofNat 0).trans Nat.cast_zero

/-- Squaring and multiplying: the accumulator is multiplied by the power that is left. -/
theorem toZMod_powLoop (acc base : Residue m) (e : Nat) :
    toZMod (powLoop acc base e) = toZMod acc * toZMod base ^ e := by
  fun_induction powLoop acc base e with
  | case1 acc base => rw [pow_zero, mul_one]
  | case2 acc base e he ih =>
    have hsplit := Nat.div_add_mod e 2
    rw [dite_eq_ite] at ih
    rw [ih, toZMod_mul]
    by_cases hodd : e % 2 = 1
    · rw [if_pos hodd, toZMod_mul, ← pow_two, ← pow_mul, mul_assoc, ← pow_succ', ← hodd, hsplit]
    · have heven : e % 2 = 0 := Nat.mod_two_ne_one.mp hodd
      rw [heven, Nat.add_zero] at hsplit
      rw [if_neg hodd, ← pow_two, ← pow_mul, hsplit]

theorem toZMod_pow (a : Residue m) (e : Nat) : toZMod (a.pow e) = toZMod a ^ e := by
  rw [pow, toZMod_powLoop, toZMod_one, one_mul]

/-- Fermat: the power `m - 2` is the inverse. -/
theorem mul_pow_sub_two (hm : m.Prime) {a : Residue m} (ha : a ≠ 0) : a * a.pow (m - 2) = 1 := by
  have : Fact m.Prime := ⟨hm⟩
  have hne : toZMod a ≠ 0 := fun hzero => ha (toZMod_injective (hzero.trans toZMod_zero.symm))
  have hexp : m - 2 + 1 = m - 1 := by
    have htwo := hm.two_le
    omega
  apply toZMod_injective
  rw [toZMod_mul, toZMod_pow, toZMod_one, ← pow_succ', hexp]
  exact ZMod.pow_card_sub_one_eq_one hne

theorem inverse?_of_ne (hm : m.Prime) {a : Residue m} (ha : a ≠ 0) :
    ∃ i, inverse? a = some i ∧ a * i = 1 :=
  ⟨a.pow (m - 2), if_neg ha, mul_pow_sub_two hm ha⟩

theorem inverse?_zero : inverse? (0 : Residue m) = none := if_pos rfl

/-- The power `(m + 1) / 4` of a square is one of its roots. -/
theorem pow_mul_pow_of_square (hm : m.Prime) (hthree : m % 4 = 3) (y : Residue m) :
    (y * y).pow ((m + 1) / 4) * (y * y).pow ((m + 1) / 4) = y * y := by
  have : Fact m.Prime := ⟨hm⟩
  have hexp : 2 * ((m + 1) / 4 + (m + 1) / 4) = m + 1 := by omega
  apply toZMod_injective
  rw [toZMod_mul, toZMod_pow, toZMod_mul]
  calc (toZMod y * toZMod y) ^ ((m + 1) / 4) * (toZMod y * toZMod y) ^ ((m + 1) / 4)
      = toZMod y ^ (m + 1) := by rw [← pow_add, ← pow_two, ← pow_mul, hexp]
    _ = toZMod y * toZMod y := by rw [pow_succ, ZMod.pow_card]

/-- Every square has its root found. -/
theorem sqrt?_of_square (hm : m.Prime) (hthree : m % 4 = 3) (y : Residue m) :
    ∃ s, sqrt? (y * y) = some s ∧ s * s = y * y :=
  ⟨_, if_pos (pow_mul_pow_of_square hm hthree y), pow_mul_pow_of_square hm hthree y⟩

/-- Nothing else has a root. -/
theorem sqrt?_of_not_square {a : Residue m} (ha : ∀ y : Residue m, y * y ≠ a) : sqrt? a = none :=
  if_neg (ha _)

theorem toZMod_neg (a : Residue m) : toZMod (-a) = -toZMod a :=
  (toZMod_ofNat _).trans (toZMod_complement a)

theorem mul_self_ne_neg_one (hm : m.Prime) (hthree : m % 4 = 3) (y : Residue m) : y * y ≠ -1 := by
  have : Fact m.Prime := ⟨hm⟩
  intro h
  have hsquare : toZMod y * toZMod y = -1 := by rw [← toZMod_mul, h, toZMod_neg, toZMod_one]
  exact ZMod.exists_sq_eq_neg_one_iff.mp ⟨toZMod y, hsquare.symm⟩ hthree

end Residue

section Roots

/-- In a field, all elements but zero have an inverse, and just the squares have a root. -/
structure RootsFound (F : Type) [RootField F] : Prop where
  inverse (a : F) : a ≠ 0 → ∃ i, ShareField.inverse? a = some i ∧ a * i = 1
  inverse_zero : ShareField.inverse? (0 : F) = none
  root (a y : F) : y * y = a → ∃ s, RootField.sqrt? a = some s ∧ s * s = a
  no_root (a : F) : (∀ y, y * y ≠ a) → RootField.sqrt? a = none

/-- The same of the words below a modulus; no multiplication on the way is a fault. -/
structure RootsFoundBelow (r : RingName) (p : Nat) : Prop where
  inverse (a : Nat) : 0 < a → a < p →
    ∃ i < p, r.inverse? a = some (some i) ∧ r.mul? a i = some 1
  inverse_zero : r.inverse? 0 = some none
  root (a y : Nat) : y < p → r.mul? y y = some a →
    ∃ s < p, r.sqrt? a = some (some s) ∧ r.mul? s s = some a
  no_root (a : Nat) : a < p → (∀ y < p, r.mul? y y ≠ some a) → r.sqrt? a = some none

/-- Words below the modulus are residues, and are computed with like them. -/
theorem RootsFoundBelow.of_residues {m : Nat} [Modulus m] {r : RingName}
    (hone : (1 : Residue m).val = 1) (hmul : ∀ a b : Residue m, r.mul? a.val b.val = some (a * b).val)
    (hinverse : ∀ a : Residue m, r.inverse? a.val = some ((Residue.inverse? a).map Residue.val))
    (hsqrt : ∀ a : Residue m, r.sqrt? a.val = some ((Residue.sqrt? a).map Residue.val))
    (hm : m.Prime) (hthree : m % 4 = 3) : RootsFoundBelow r m where
  inverse a hpos ha := by
    have hne : (⟨a, ha⟩ : Residue m) ≠ 0 := by
      intro hzero
      have hval : a = 0 % m := congrArg Residue.val hzero
      rw [Nat.zero_mod] at hval
      omega
    obtain ⟨i, hi, hproduct⟩ := Residue.inverse?_of_ne hm hne
    refine ⟨i.val, i.isLt, ?_, ?_⟩
    · rw [hinverse ⟨a, ha⟩, hi, Option.map_some]
    · rw [hmul ⟨a, ha⟩ i, hproduct, hone]
  inverse_zero := by
    have hzero : (0 : Residue m).val = 0 := Nat.zero_mod m
    rw [← hzero, hinverse 0, Residue.inverse?_zero, Option.map_none]
  root a y hy hsquare := by
    have ha : (⟨y, hy⟩ * ⟨y, hy⟩ : Residue m).val = a :=
      Option.some.inj ((hmul ⟨y, hy⟩ ⟨y, hy⟩).symm.trans hsquare)
    obtain ⟨s, hs, hroot⟩ := Residue.sqrt?_of_square hm hthree ⟨y, hy⟩
    refine ⟨s.val, s.isLt, ?_, ?_⟩
    · rw [← ha, hsqrt, hs, Option.map_some]
    · rw [hmul s s, hroot, ha]
  no_root a ha hnone := by
    have hsquare : ∀ y : Residue m, y * y ≠ ⟨a, ha⟩ := by
      intro y hy
      apply hnone y.val y.isLt
      rw [hmul y y, hy]
    rw [hsqrt ⟨a, ha⟩, Residue.sqrt?_of_not_square hsquare, Option.map_none]

theorem rootsFound61 : RootsFound Mersenne61 where
  inverse _ := Residue.inverse?_of_ne prime_mersenne61
  inverse_zero := Residue.inverse?_zero
  root := by
    rintro _ y rfl
    exact Residue.sqrt?_of_square prime_mersenne61 (by decide) y
  no_root _ := Residue.sqrt?_of_not_square

theorem rootsFound127 : RootsFound Mersenne127 where
  inverse _ := Residue.inverse?_of_ne prime_mersenne127
  inverse_zero := Residue.inverse?_zero
  root := by
    rintro _ y rfl
    exact Residue.sqrt?_of_square prime_mersenne127 (by decide) y
  no_root _ := Residue.sqrt?_of_not_square

/-- **Inverses and square roots in the Mersenne fields** are correct and complete, for elements and
for the words that hold them: every element but zero has its inverse found, every square a root
of it, and no other element has either. -/
theorem inverse_sqrt_complete :
    RootsFound Mersenne61 ∧ RootsFoundBelow .mersenne61 (2 ^ 61 - 1) ∧
    RootsFound Mersenne127 ∧ RootsFoundBelow .mersenne127 (2 ^ 127 - 1) := by
  refine ⟨rootsFound61, ?_, rootsFound127, ?_⟩
  · exact .of_residues (m := Nat.pow 2 61 - 1) rfl (WordRing.mul_eq (α := Mersenne61))
      (WordField.inverse_eq (α := Mersenne61)) (WordRootField.sqrt_eq (α := Mersenne61))
      prime_mersenne61 (by decide)
  · exact .of_residues (m := Nat.pow 2 127 - 1) rfl (WordRing.mul_eq (α := Mersenne127))
      (WordField.inverse_eq (α := Mersenne127)) (WordRootField.sqrt_eq (α := Mersenne127))
      prime_mersenne127 (by decide)

/-- The word 9 has a root, the largest word an inverse, and `-1` has no root. -/
theorem inverse_sqrt_complete_sample :
    (∃ s < 2 ^ 61 - 1, RingName.sqrt? .mersenne61 9 = some (some s) ∧
      RingName.mul? .mersenne61 s s = some 9) ∧
    (∃ i < 2 ^ 127 - 1, RingName.inverse? .mersenne127 (2 ^ 127 - 2) = some (some i) ∧
      RingName.mul? .mersenne127 (2 ^ 127 - 2) i = some 1) ∧
    RootField.sqrt? (-1 : Mersenne127) = none := by
  obtain ⟨-, hsmall, hfield, hlarge⟩ := inverse_sqrt_complete
  refine ⟨?_, ?_, ?_⟩
  · exact hsmall.root 9 3 (by decide) (mul61?_eq (by decide) (by decide))
  · exact hlarge.inverse (2 ^ 127 - 2) (by decide) (by decide)
  · exact hfield.no_root (-1) (Residue.mul_self_ne_neg_one prime_mersenne127 (by decide))

end Roots

end Beaver
