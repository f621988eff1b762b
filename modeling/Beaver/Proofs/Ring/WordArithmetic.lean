import Mathlib
import Beaver.Proofs.Ring.Instances
import Beaver.Ring.Word

/-!
# Arithmetic in machine words

On the integers that represent ring elements, the arithmetic of machine words is exact:
no sum leaves its word, no difference is negative, no shift passes the width, and what
comes out represents the sum, the product or the inverse (`WordRing`).

The Mersenne moduli are the work here.  A product of two words is put together from the
products of their halves (`mulWide?_eq`); folding replaces `2^k` by 1 modulo `2^k - 1`.
-/

namespace Beaver

open ShareRing

variable {width a b : Nat}

theorem addIn?_eq (h : a + b < 2 ^ width) : addIn? width a b = some (a + b) :=
  if_pos h

theorem mulIn?_eq (h : a * b < 2 ^ width) : mulIn? width a b = some (a * b) :=
  if_pos h

theorem subIn?_eq (h : b ≤ a) : subIn? a b = some (a - b) :=
  if_pos h

section Folding

/-- Since `2^k` is congruent to 1, the high part can be added to the low part. -/
theorem mod_fold (k x : Nat) : (x % 2 ^ k + x / 2 ^ k) % (2 ^ k - 1) = x % (2 ^ k - 1) := by
  have hpow : 0 < 2 ^ k := Nat.two_pow_pos k
  have hx : x = x % 2 ^ k + x / 2 ^ k + (2 ^ k - 1) * (x / 2 ^ k) := by
    have hdiv := Nat.mod_add_div x (2 ^ k)
    rw [Nat.sub_mul, Nat.one_mul]
    have hle : x / 2 ^ k ≤ 2 ^ k * (x / 2 ^ k) := Nat.le_mul_of_pos_left _ hpow
    omega
  conv_rhs => rw [hx]
  rw [Nat.add_mul_mod_self_left]

variable {x a b : Nat}

/-- One subtraction brings a number below twice the modulus to its residue. -/
theorem reduceOnce?_eq {p : Nat} (h : x < 2 * p) : reduceOnce? p x = some (x % p) := by
  unfold reduceOnce?
  by_cases hle : p ≤ x
  · rw [if_pos hle, subIn?_eq hle, Nat.mod_eq_sub_mod hle, Nat.mod_eq_of_lt (by omega)]
  · rw [if_neg hle, Nat.mod_eq_of_lt (by omega)]

/-- Two foldings bring a word of 128 bits near the smaller modulus. -/
theorem reduce61?_eq (hx : x < 2 ^ 128) : reduce61? x = some (x % (2 ^ 61 - 1)) := by
  simp only [reduce61?, Nat.pow_eq]
  have hfirst : x % 2 ^ 61 + x / 2 ^ 61 < 2 ^ 68 := by omega
  rw [addIn?_eq (by omega), ← mod_fold 61 x]
  generalize x % 2 ^ 61 + x / 2 ^ 61 = y at *
  have hsecond : y % 2 ^ 61 + y / 2 ^ 61 < 2 * (2 ^ 61 - 1) := by omega
  simp only [Option.bind_eq_bind, Option.bind_some]
  rw [addIn?_eq (by omega), ← mod_fold 61 y]
  simp only [Option.bind_some]
  rw [Nat.mod_eq_of_lt (by omega : y % 2 ^ 61 + y / 2 ^ 61 < 2 ^ 64)]
  exact reduceOnce?_eq hsecond

/-- One folding brings a word of 128 bits near the larger modulus. -/
theorem reduce127?_eq (hx : x < 2 ^ 128) : reduce127? x = some (x % (2 ^ 127 - 1)) := by
  simp only [reduce127?, Nat.pow_eq]
  rw [addIn?_eq (by omega), ← mod_fold 127 x]
  exact reduceOnce?_eq (by omega)

/-- **The product of two words** comes in two words, and no sum on the way is too large. -/
theorem mulWide?_eq (ha : a < 2 ^ 128) (hb : b < 2 ^ 128) :
    ∃ low high, mulWide? a b = some (low, high) ∧ low < 2 ^ 128 ∧ high < 2 ^ 128 ∧
      low + 2 ^ 128 * high = a * b := by
  have hhalf : ∀ x y : Nat, x < 2 ^ 64 → y < 2 ^ 64 → x * y ≤ (2 ^ 64 - 1) * (2 ^ 64 - 1) :=
    fun x y hx hy => Nat.mul_le_mul (by omega) (by omega)
  have hproduct : a * b = (a % 2 ^ 64) * (b % 2 ^ 64)
      + 2 ^ 64 * ((a % 2 ^ 64) * (b / 2 ^ 64) + (a / 2 ^ 64) * (b % 2 ^ 64))
      + 2 ^ 128 * ((a / 2 ^ 64) * (b / 2 ^ 64)) := by
    conv_lhs => rw [← Nat.mod_add_div a (2 ^ 64), ← Nat.mod_add_div b (2 ^ 64)]
    ring
  have h00 := hhalf (a % 2 ^ 64) (b % 2 ^ 64) (Nat.mod_lt _ (by norm_num)) (Nat.mod_lt _ (by norm_num))
  have h01 := hhalf (a % 2 ^ 64) (b / 2 ^ 64) (Nat.mod_lt _ (by norm_num)) (by omega)
  have h10 := hhalf (a / 2 ^ 64) (b % 2 ^ 64) (by omega) (Nat.mod_lt _ (by norm_num))
  have h11 := hhalf (a / 2 ^ 64) (b / 2 ^ 64) (by omega) (by omega)
  have hword : (2 ^ 64 - 1) * (2 ^ 64 - 1) < 2 ^ 128 := by norm_num
  simp only [mulWide?, Nat.pow_eq]
  rw [mulIn?_eq (h00.trans_lt hword), mulIn?_eq (h01.trans_lt hword),
    mulIn?_eq (h10.trans_lt hword), mulIn?_eq (h11.trans_lt hword)]
  simp only [Option.bind_eq_bind, Option.bind_some]
  generalize (a % 2 ^ 64) * (b % 2 ^ 64) = p00 at *
  generalize (a % 2 ^ 64) * (b / 2 ^ 64) = p01 at *
  generalize (a / 2 ^ 64) * (b % 2 ^ 64) = p10 at *
  generalize (a / 2 ^ 64) * (b / 2 ^ 64) = p11 at *
  have hmid : p00 / 2 ^ 64 + p01 % 2 ^ 64 + p10 % 2 ^ 64 < 2 ^ 128 := by omega
  generalize hm : p00 / 2 ^ 64 + p01 % 2 ^ 64 + p10 % 2 ^ 64 = mid at *
  have hhigh : p11 + p01 / 2 ^ 64 + p10 / 2 ^ 64 + mid / 2 ^ 64 < 2 ^ 128 := by omega
  have hlow : p00 % 2 ^ 64 ||| (mid <<< 64) % 2 ^ 128 = p00 % 2 ^ 64 + 2 ^ 64 * (mid % 2 ^ 64) := by
    have hshift : (mid <<< 64) % 2 ^ 128 = 2 ^ 64 * (mid % 2 ^ 64) := by
      rw [Nat.shiftLeft_eq]
      omega
    rw [hshift, Nat.or_comm, ← Nat.two_pow_add_eq_or_of_lt (Nat.mod_lt _ (by norm_num)), Nat.add_comm]
  refine ⟨p00 % 2 ^ 64 ||| (mid <<< 64) % 2 ^ 128,
    p11 + p01 / 2 ^ 64 + p10 / 2 ^ 64 + mid / 2 ^ 64, ?_, ?_, hhigh, ?_⟩
  · rw [addIn?_eq (by omega)]
    simp only [Option.bind_some]
    rw [addIn?_eq (by omega), hm]
    simp only [Option.bind_some]
    rw [addIn?_eq (by omega)]
    simp only [Option.bind_some]
    rw [addIn?_eq (by omega)]
    simp only [Option.bind_some]
    rw [addIn?_eq hhigh]
    rfl
  · rw [hlow]
    omega
  · rw [hlow, hproduct]
    omega

theorem mul61?_eq (ha : a < 2 ^ 61 - 1) (hb : b < 2 ^ 61 - 1) :
    mul61? a b = some (a * b % (2 ^ 61 - 1)) := by
  have hproduct : a * b < 2 ^ 61 * 2 ^ 61 := Nat.mul_lt_mul'' (by omega) (by omega)
  have hword : a * b < 2 ^ 128 := hproduct.trans (by norm_num)
  rw [mul61?, mulIn?_eq hword]
  exact reduce61?_eq hword

theorem mul127?_eq (ha : a < 2 ^ 127 - 1) (hb : b < 2 ^ 127 - 1) :
    mul127? a b = some (a * b % (2 ^ 127 - 1)) := by
  obtain ⟨low, high, hwide, hlow, -, hproduct⟩ :=
    mulWide?_eq (a := a) (b := b) (by omega) (by omega)
  have hsmall : a * b < 2 ^ 127 * 2 ^ 127 :=
    Nat.mul_lt_mul'' (by omega) (by omega)
  have hshift : (high <<< 1) % 2 ^ 128 = 2 * high := by
    rw [Nat.shiftLeft_eq]
    omega
  have hfold : low % 2 ^ 127 + low / 2 ^ 127 + 2 * high < 2 ^ 128 := by omega
  simp only [mul127?, Nat.pow_eq, hwide, hshift, Option.bind_eq_bind, Option.bind_some]
  rw [addIn?_eq (by omega)]
  simp only [Option.bind_some]
  rw [addIn?_eq hfold]
  simp only [Option.bind_some]
  rw [reduce127?_eq hfold, ← hproduct]
  have hcongr : low + 2 ^ 128 * high = low % 2 ^ 127 + low / 2 ^ 127 + 2 * high
      + (2 ^ 127 - 1) * (low / 2 ^ 127 + 2 * high) := by omega
  rw [hcongr, Nat.add_mul_mod_self_left]

end Folding

/-- A ring that is computed with in machine words.  On representing integers the
arithmetic of words has no fault and gives the representing integer of the result. -/
class WordRing (α : Type) [ShareRing α] where
  /-- The ring whose arithmetic of words is used. -/
  ring : RingName
  add_eq (a b : α) : ring.add? (toNat a) (toNat b) = some (toNat (a + b))
  neg_eq (a : α) : ring.neg? (toNat a) = some (toNat (-a))
  mul_eq (a b : α) : ring.mul? (toNat a) (toNat b) = some (toNat (a * b))
  bit_eq (a : α) {i : Nat} (h : i < bits α) : ring.bit? (toNat a) i = some (bit a i)
  basis_eq {i : Nat} (h : i < bits α) : ring.basis? i = some (toNat (basis i : α))

/-- A field whose inverses are found in machine words. -/
class WordField (α : Type) [ShareField α] extends WordRing α where
  inverse_eq (a : α) : ring.inverse? (toNat a) = some ((ShareField.inverse? a).map ShareRing.toNat)

/-- A field whose square roots are found in machine words. -/
class WordRootField (α : Type) [RootField α] extends WordField α where
  sqrt_eq (a : α) : ring.sqrt? (toNat a) = some ((RootField.sqrt? a).map ShareRing.toNat)

section Mersenne

variable {m : Nat} [Modulus m]
variable {p width a i : Nat} {r : RingName}

theorem Residue.val_inj {a b : Residue p} : a.val = b.val ↔ a = b := by
  cases a
  cases b
  rw [Residue.mk.injEq]

theorem Residue.val_ofNat (x : Nat) : (Residue.ofNat x : Residue m).val = x % m := rfl

theorem addMod?_eq {b : Nat} (hwidth : 2 * p ≤ 2 ^ width) (ha : a < p) (hb : b < p) :
    RingName.addMod? width p a b = some ((a + b) % p) := by
  rw [RingName.addMod?, addIn?_eq (by omega)]
  exact reduceOnce?_eq (by omega)

theorem negMod?_eq (ha : a < p) : RingName.negMod? p a = some ((p - a) % p) := by
  unfold RingName.negMod?
  by_cases hzero : a = 0
  · rw [if_pos hzero, hzero, Nat.sub_zero, Nat.mod_self]
  · rw [if_neg hzero, subIn?_eq ha.le, Nat.mod_eq_of_lt (by omega)]

/-- Powers are found by multiplications alone. -/
theorem powLoop?_eq (hmul : ∀ a b : Residue m, r.mul? a.val b.val = some (a * b).val)
    (acc base : Residue m) (e : Nat) :
    r.powLoop? acc.val base.val e = some (Residue.powLoop acc base e).val := by
  induction acc, base, e using Residue.powLoop.induct with
  | case1 acc base => rw [RingName.powLoop?, Residue.powLoop, if_pos rfl, if_pos rfl]
  | case2 acc base e hne ih =>
    rw [RingName.powLoop?, Residue.powLoop, if_neg hne, if_neg hne]
    by_cases hodd : e % 2 = 1
    · rw [dif_pos hodd] at ih
      simpa only [hmul, if_pos hodd, Option.bind_eq_bind, Option.bind_some] using ih
    · rw [dif_neg hodd] at ih
      simpa only [hmul, if_neg hodd, Option.bind_eq_bind, Option.bind_some] using ih

theorem pow?_eq (hmul : ∀ a b : Residue m, r.mul? a.val b.val = some (a * b).val)
    (hone : (1 : Residue m).val = 1) (a : Residue m) (e : Nat) :
    r.pow? a.val e = some (a.pow e).val := by
  have hloop := powLoop?_eq hmul 1 a e
  rw [hone] at hloop
  exact hloop

/-- Bits and powers of two below the width are found without a fault. -/
theorem RingName.bit?_eq (hr : r ≠ .gf2) (hi : i < r.width) (x : Nat) :
    r.bit? x i = some (x.testBit i) := by
  rw [bit?, if_neg hr, if_pos hi]

theorem RingName.basis?_eq (hr : r ≠ .gf2) (hi : i < r.width) : r.basis? i = some (2 ^ i) := by
  rw [basis?, if_neg hr, if_pos hi, Nat.pow_eq]

/-- The power of two that a bit stands for is its own residue. -/
theorem Residue.val_basis {bits : Nat} {name label : String} {sampling : Sampling} {k : Nat}
    (hwidth : i < width) (hi : i ≤ k) (hk : 2 ^ k < m) :
    (@basis (Residue m) (shareRing m bits width name label sampling) i).val = 2 ^ i := by
  let _ring := shareRing m bits width name label sampling
  have hbasis : (basis i : Residue m) = ofNat (Nat.pow 2 i) := by
    rw [basis, show basis? i = some (ofNat (Nat.pow 2 i) : Residue m) from if_pos hwidth]
    rfl
  rw [hbasis, val_ofNat, Nat.pow_eq]
  exact Nat.mod_eq_of_lt (Nat.lt_of_le_of_lt (Nat.pow_le_pow_right (by omega) hi) hk)

/-- The inverse is a power. -/
theorem inverse?_eq (hmul : ∀ a b : Residue m, r.mul? a.val b.val = some (a * b).val)
    (hone : (1 : Residue m).val = 1) (a : Residue m) :
    (if a.val = 0 then some none else (r.pow? a.val (m - 2)).map some)
      = some ((Residue.inverse? a).map Residue.val) := by
  have hzero : a.val = 0 ↔ a = 0 := by
    rw [← Residue.val_inj, show (0 : Residue m).val = 0 from Nat.zero_mod m]
  rw [Residue.inverse?, pow?_eq hmul hone]
  by_cases h : a = 0
  · rw [if_pos (hzero.mpr h), if_pos h]
    rfl
  · rw [if_neg (fun h' => h (hzero.mp h')), if_neg h]
    rfl

/-- The square root is a power, whose square is compared. -/
theorem sqrt?_eq (hmul : ∀ a b : Residue m, r.mul? a.val b.val = some (a * b).val)
    (hone : (1 : Residue m).val = 1) (a : Residue m) :
    (do
      let root ← r.pow? a.val ((m + 1) / 4)
      let square ← r.mul? root root
      some (if square = a.val then some root else none))
      = some ((Residue.sqrt? a).map Residue.val) := by
  simp only [pow?_eq hmul hone, hmul, Option.bind_eq_bind, Option.bind_some, Option.some.injEq,
    Residue.val_inj, Residue.sqrt?]
  split <;> rfl

end Mersenne

instance : WordRootField Mersenne61 :=
  have hmul (a b : Mersenne61) : RingName.mul? .mersenne61 a.val b.val = some (a * b).val :=
    mul61?_eq a.isLt b.isLt
  { ring := .mersenne61
    add_eq := fun a b => addMod?_eq (by decide) a.isLt b.isLt
    neg_eq := fun a => negMod?_eq a.isLt
    mul_eq := hmul
    bit_eq := fun a i h => RingName.bit?_eq (by decide) (Nat.lt_trans h (by decide)) a.val
    basis_eq := fun {i} h => by
      have hi : i < 64 := Nat.lt_trans h (by decide)
      rw [RingName.basis?_eq (by decide) hi]
      exact congrArg some (Residue.val_basis hi (Nat.le_of_lt_succ h) (by decide)).symm
    inverse_eq := inverse?_eq hmul rfl
    sqrt_eq := sqrt?_eq hmul rfl }

instance : WordRootField Mersenne127 :=
  have hmul (a b : Mersenne127) : RingName.mul? .mersenne127 a.val b.val = some (a * b).val :=
    mul127?_eq a.isLt b.isLt
  { ring := .mersenne127
    add_eq := fun a b => addMod?_eq (by decide) a.isLt b.isLt
    neg_eq := fun a => negMod?_eq a.isLt
    mul_eq := hmul
    bit_eq := fun a i h => RingName.bit?_eq (by decide) (Nat.lt_trans h (by decide)) a.val
    basis_eq := fun {i} h => by
      have hi : i < 128 := Nat.lt_trans h (by decide)
      rw [RingName.basis?_eq (by decide) hi]
      exact congrArg some (Residue.val_basis hi (Nat.le_of_lt_succ h) (by decide)).symm
    inverse_eq := inverse?_eq hmul rfl
    sqrt_eq := sqrt?_eq hmul rfl }

instance : WordRing Word64 where
  ring := .word64
  add_eq _ _ := rfl
  neg_eq _ := rfl
  mul_eq _ _ := rfl
  bit_eq a i h := RingName.bit?_eq (by decide) h a.val
  basis_eq {i} h := by
    rw [RingName.basis?_eq (by decide) h]
    exact congrArg some (Residue.val_basis h (Nat.le_of_lt_succ h) (by decide)).symm

instance : WordRing Word128 where
  ring := .word128
  add_eq _ _ := rfl
  neg_eq _ := rfl
  mul_eq _ _ := rfl
  bit_eq a i h := RingName.bit?_eq (by decide) h a.val
  basis_eq {i} h := by
    rw [RingName.basis?_eq (by decide) h]
    exact congrArg some (Residue.val_basis h (Nat.le_of_lt_succ h) (by decide)).symm

theorem Block.toNat_xor (a b : Block) : (a ^^^ b).toNat = a.toNat ^^^ b.toNat := by
  apply Nat.eq_of_testBit_eq
  intro i
  rw [Nat.testBit_xor, ← bit_eq_testBit, ← bit_eq_testBit, ← bit_eq_testBit, bit_xor]

instance : WordField Gf128 where
  ring := .gf128
  add_eq a b := congrArg some (Block.toNat_xor a.block b.block).symm
  neg_eq _ := rfl
  mul_eq a b := by
    change some ((Block.ofNat a.block.toNat).gfMul (Block.ofNat b.block.toNat)).toNat = _
    rw [Block.ofNat_toNat, Block.ofNat_toNat]
    rfl
  bit_eq a i h := RingName.bit?_eq (by decide) h a.block.toNat
  basis_eq {i} h := by
    have hbasis : (basis i : Gf128) = ⟨Block.ofNat (Nat.pow 2 i)⟩ := by
      rw [basis, show basis? i = some (⟨Block.ofNat (Nat.pow 2 i)⟩ : Gf128) from if_pos h]
      rfl
    rw [RingName.basis?_eq (by decide) h, hbasis]
    exact congrArg some (Block.toNat_ofNat (Nat.pow_lt_pow_right (by omega) h)).symm
  inverse_eq a := by
    change some ((Block.ofNat a.block.toNat).gfInverse?.map Block.toNat)
      = some ((a.block.gfInverse?.map Gf128.mk).map _)
    rw [Block.ofNat_toNat, Option.map_map]
    rfl

instance : WordField Gf2 where
  ring := .gf2
  add_eq a b := by
    obtain ⟨a⟩ := a
    obtain ⟨b⟩ := b
    cases a <;> cases b <;> rfl
  neg_eq _ := rfl
  mul_eq a b := by
    obtain ⟨a⟩ := a
    obtain ⟨b⟩ := b
    cases a <;> cases b <;> rfl
  bit_eq a i h := by
    obtain rfl : i = 0 := Nat.lt_one_iff.mp h
    obtain ⟨a⟩ := a
    cases a <;> rfl
  basis_eq _ := rfl
  inverse_eq a := by
    obtain ⟨a⟩ := a
    cases a <;> rfl

instance : (r : RingName) → WordRing r.Carrier
  | .mersenne61 => (inferInstance : WordRing Mersenne61)
  | .mersenne127 => (inferInstance : WordRing Mersenne127)
  | .gf128 => (inferInstance : WordRing Gf128)
  | .gf2 => (inferInstance : WordRing Gf2)
  | .word64 => (inferInstance : WordRing Word64)
  | .word128 => (inferInstance : WordRing Word128)

instance : (f : FieldName) → WordField f.Carrier
  | .mersenne61 => (inferInstance : WordField Mersenne61)
  | .mersenne127 => (inferInstance : WordField Mersenne127)
  | .gf128 => (inferInstance : WordField Gf128)
  | .gf2 => (inferInstance : WordField Gf2)

end Beaver
