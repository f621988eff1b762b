import Mathlib
import Beaver.Block

/-!
# The bits of blocks and byte strings

Two blocks are equal when all their bits are.  Sums, masks and scaled blocks are then
seen bit by bit, and so is a block read from bytes: bit `i` is bit `i % 8` of byte
`i / 8` (`Block.bit_ofBytes`).
-/

namespace Beaver

/-- A number of at most `n` bits has none from bit `n` on. -/
theorem testBit_of_lt_of_le {x n i : Nat} (hx : x < 2 ^ n) (hi : n ≤ i) : x.testBit i = false :=
  Nat.testBit_lt_two_pow (Nat.lt_of_lt_of_le hx (Nat.pow_le_pow_right (by omega) hi))

namespace Bytes

/-- Bit `i` of a byte string; every later position reads as clear. -/
def bit (bs : Bytes) (i : Nat) : Bool :=
  ((bs[i / 8]?).map fun b => b.toNat.testBit (i % 8)).getD false

theorem testBit_toNatLE (bs : Bytes) (i : Nat) : (toNatLE bs).testBit i = bs.bit i := by
  induction bs generalizing i with
  | nil => simp [toNatLE, bit]
  | cons b bs ih =>
    have hb : b.toNat < 2 ^ 8 := b.toNat_lt
    rw [toNatLE, Nat.add_comm, show 256 = 2 ^ 8 from rfl, Nat.testBit_two_pow_mul_add _ hb]
    by_cases hi : i < 8
    · simp [hi, bit, Nat.div_eq_of_lt hi, Nat.mod_eq_of_lt hi]
    · rw [if_neg hi, ih, bit, bit]
      have hdiv : i / 8 = (i - 8) / 8 + 1 := by omega
      have hmod : i % 8 = (i - 8) % 8 := by omega
      rw [hdiv, hmod, List.getElem?_cons_succ]

variable {bs : Bytes}

theorem bit_of_length_le {i : Nat} (h : 8 * bs.length ≤ i) : bs.bit i = false := by
  rw [bit, List.getElem?_eq_none (by omega)]
  rfl

theorem bit_take {n i : Nat} (h : i < 8 * n) : Bytes.bit (bs.take n) i = bs.bit i := by
  rw [bit, bit, List.getElem?_take_of_lt (by omega)]

theorem bit_drop (bs : Bytes) (n i : Nat) : Bytes.bit (bs.drop n) i = bs.bit (8 * n + i) := by
  have hdiv : (8 * n + i) / 8 = n + i / 8 := by omega
  have hmod : (8 * n + i) % 8 = i % 8 := by omega
  rw [bit, bit, List.getElem?_drop, hdiv, hmod]

end Bytes

namespace Block

variable {i : Nat} {a b : Block}

theorem testBit_word (x : UInt64) (hi : i < 64) :
    ((x >>> UInt64.ofNat i) &&& 1 == 1) = x.toNat.testBit i := by
  rw [Bool.eq_iff_iff, beq_iff_eq, ← UInt64.toNat_inj, Nat.testBit_eq_decide_div_mod_eq,
    decide_eq_true_iff]
  simp [Nat.shiftRight_eq_div_pow, Nat.mod_eq_of_lt hi]

theorem toNat_eq (b : Block) : b.toNat = b.lo.toNat + 2 ^ 64 * b.hi.toNat := rfl

/-- The bits of a block are those of the integer it stands for. -/
theorem bit_eq_testBit (b : Block) (i : Nat) : b.bit i = b.toNat.testBit i := by
  have hlo : b.lo.toNat < 2 ^ 64 := b.lo.toNat_lt
  rw [bit, toNat_eq, Nat.add_comm, Nat.testBit_two_pow_mul_add _ hlo]
  by_cases hlow : i < 64
  · simp only [hlow, if_true, testBit_word b.lo hlow]
  · by_cases hhigh : i < 128
    · simp only [hlow, hhigh, if_true, if_false]
      exact testBit_word b.hi (by omega)
    · simp only [hlow, hhigh, if_false]
      symm
      exact testBit_of_lt_of_le b.hi.toNat_lt (by omega)

theorem toNat_lt (b : Block) : b.toNat < 2 ^ 128 := by
  have hlo := b.lo.toNat_lt
  have hhi := b.hi.toNat_lt
  rw [toNat_eq]
  omega

theorem toNat_injective (h : a.toNat = b.toNat) : a = b := by
  have hlo := a.lo.toNat_lt
  have hlo' := b.lo.toNat_lt
  rw [toNat_eq, toNat_eq] at h
  have h₁ : a.lo = b.lo := UInt64.toNat_inj.mp (by omega)
  have h₂ : a.hi = b.hi := UInt64.toNat_inj.mp (by omega)
  cases a
  cases b
  cases h₁
  cases h₂
  rfl

/-- **Blocks with the same bits are equal.** -/
theorem ext_bit (h : ∀ i < 128, a.bit i = b.bit i) : a = b := by
  apply toNat_injective
  apply Nat.eq_of_testBit_eq
  intro i
  rw [← bit_eq_testBit, ← bit_eq_testBit]
  by_cases hi : i < 128
  · exact h i hi
  · have hlow : ¬ i < 64 := by omega
    simp only [bit, hi, hlow, if_false]

theorem bit_of_lt (b : Block) (hi : i < 64) : b.bit i = b.lo.toNat.testBit i := by
  rw [bit, if_pos hi, testBit_word b.lo hi]

theorem bit_add (b : Block) (hi : i < 64) : b.bit (64 + i) = b.hi.toNat.testBit i := by
  have hlow : ¬ 64 + i < 64 := by omega
  have hhigh : 64 + i < 128 := by omega
  have hsub : 64 + i - 64 = i := by omega
  rw [bit, if_neg hlow, if_pos hhigh, hsub, testBit_word b.hi hi]

/-- A position is in the low or in the high half. -/
theorem half_cases (hi : i < 128) : i < 64 ∨ ∃ k < 64, i = 64 + k := by
  by_cases hlow : i < 64
  · exact .inl hlow
  · exact .inr ⟨i - 64, by omega, by omega⟩

theorem bit_of_le (b : Block) (hi : 128 ≤ i) : b.bit i = false := by
  have hlow : ¬ i < 64 := by omega
  have hhigh : ¬ i < 128 := by omega
  rw [bit, if_neg hlow, if_neg hhigh]

@[simp]
theorem bit_zero (i : Nat) : zero.bit i = false := by
  rw [bit_eq_testBit]
  exact Nat.zero_testBit i

@[simp]
theorem bit_xor (a b : Block) (i : Nat) : (a ^^^ b).bit i = (a.bit i ^^ b.bit i) := by
  by_cases hi : i < 128
  · rcases half_cases hi with hi | ⟨i, hk, rfl⟩
    · rw [bit_of_lt _ hi, bit_of_lt _ hi, bit_of_lt _ hi, ← Nat.testBit_xor]
      exact congrArg (Nat.testBit · i) (UInt64.toNat_xor a.lo b.lo)
    · rw [bit_add _ hk, bit_add _ hk, bit_add _ hk, ← Nat.testBit_xor]
      exact congrArg (Nat.testBit · i) (UInt64.toNat_xor a.hi b.hi)
  · rw [bit_of_le _ (by omega), bit_of_le _ (by omega), bit_of_le _ (by omega)]
    rfl

@[simp]
theorem bit_and (a b : Block) (i : Nat) : (a &&& b).bit i = (a.bit i && b.bit i) := by
  by_cases hi : i < 128
  · rcases half_cases hi with hi | ⟨i, hk, rfl⟩
    · rw [bit_of_lt _ hi, bit_of_lt _ hi, bit_of_lt _ hi, ← Nat.testBit_and]
      exact congrArg (Nat.testBit · i) (UInt64.toNat_and a.lo b.lo)
    · rw [bit_add _ hk, bit_add _ hk, bit_add _ hk, ← Nat.testBit_and]
      exact congrArg (Nat.testBit · i) (UInt64.toNat_and a.hi b.hi)
  · rw [bit_of_le _ (by omega), bit_of_le _ (by omega), bit_of_le _ (by omega)]
    rfl

@[simp]
theorem bit_scale (b : Block) (c : Bool) (i : Nat) : (b.scale c).bit i = (c && b.bit i) := by
  cases c with
  | false => exact bit_zero i
  | true => rfl

theorem xor_assoc (a b c : Block) : a ^^^ b ^^^ c = a ^^^ (b ^^^ c) := by
  apply ext_bit
  intro i _
  simp only [bit_xor, Bool.xor_assoc]

@[simp]
theorem xor_self (a : Block) : a ^^^ a = zero := by
  apply ext_bit
  intro i _
  rw [bit_xor, bit_zero, Bool.xor_self]

@[simp]
theorem xor_zero (a : Block) : a ^^^ zero = a := by
  apply ext_bit
  intro i _
  rw [bit_xor, bit_zero, Bool.xor_false]

/-- **A block read from bytes has their bits.** -/
theorem bit_ofBytes (bs : Bytes) (hi : i < 128) : (ofBytes bs).bit i = bs.bit i := by
  have hword : ∀ (bs : Bytes) (i : Nat), i < 64 →
      (UInt64.ofNat (Bytes.toNatLE (bs.take 8))).toNat.testBit i = bs.bit i := by
    intro bs i hi
    rw [UInt64.toNat_ofNat', Nat.testBit_mod_two_pow, Bytes.testBit_toNatLE, Bytes.bit_take (by omega)]
    simp [hi]
  rcases half_cases hi with hi | ⟨i, hk, rfl⟩
  · rw [bit_of_lt _ hi]
    exact hword bs i hi
  · rw [bit_add _ hk]
    refine (hword (bs.drop 8) i hk).trans ?_
    rw [Bytes.bit_drop]

/-- The bytes of a block have its bits. -/
theorem bit_toBytes (b : Block) (hi : i < 128) (rest : Bytes) :
    Bytes.bit (b.toBytes ++ rest) i = b.bit i := by
  have hbytes : ∀ (x : UInt64) (i : Nat) (rest : Bytes), i < 64 →
      Bytes.bit (Bytes.ofNatLE 8 x.toNat ++ rest) i = x.toNat.testBit i := by
    intro x i rest hi
    rw [← Bytes.bit_take (n := 8) (by omega), List.take_left' (Bytes.length_ofNatLE 8 _),
      ← Bytes.testBit_toNatLE, Bytes.toNatLE_ofNatLE]
    exact congrArg (Nat.testBit · i) (Nat.mod_eq_of_lt x.toNat_lt)
  rw [toBytes, List.append_assoc]
  rcases half_cases hi with hi | ⟨i, hk, rfl⟩
  · rw [bit_of_lt _ hi, hbytes _ i _ hi]
  · rw [bit_add _ hk, show 64 + i = 8 * 8 + i from rfl, ← Bytes.bit_drop,
      List.drop_left' (Bytes.length_ofNatLE 8 _), hbytes _ i _ hk]

theorem bit_toBytes_self (b : Block) (hi : i < 128) : Bytes.bit b.toBytes i = b.bit i := by
  simpa using b.bit_toBytes hi []

/-- A block can be read back from the front of its bytes. -/
theorem ofBytes_toBytes_append (b : Block) (rest : Bytes) : ofBytes (b.toBytes ++ rest) = b := by
  apply ext_bit
  intro i hi
  rw [bit_ofBytes _ hi, bit_toBytes b hi]

@[simp]
theorem ofBytes_toBytes (b : Block) : ofBytes b.toBytes = b := by
  simpa using ofBytes_toBytes_append b []

end Block

end Beaver
