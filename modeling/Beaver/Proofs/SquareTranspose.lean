import Beaver.BitMatrix
import Beaver.Proofs.BlockBits

/-!
# A square is transposed by halves

Each step of the transposition exchanges one binary digit of the row index with the
same digit of the column index: where the two digits differ, the bit comes from the
place in which both are flipped.  The first step does this within the registers
(`rowBit_transposePairs`), the next five between registers (`rowBit_swapBlocks`), and the
last by whole words (`rowBit_swapQuadrants`).  After them all seven digits have been
exchanged, so row and column have changed places (`bit_transpose`).
-/

namespace Beaver.Square

/-- The place that has changed digit `k` of row and column with this one. -/
def exchange (k : Nat) (p : Nat × Nat) : Nat × Nat :=
  if p.1.testBit k = p.2.testBit k then p else (p.1 ^^^ 2 ^ k, p.2 ^^^ 2 ^ k)

theorem testBit_exchange_fst (k : Nat) (p : Nat × Nat) (m : Nat) :
    (exchange k p).1.testBit m = if m = k then p.2.testBit k else p.1.testBit m := by
  rw [exchange]
  by_cases hmk : m = k
  · subst hmk
    by_cases heq : p.1.testBit m = p.2.testBit m
    · simp [heq]
    · simp only [heq, if_false, if_true, Nat.testBit_xor, Nat.testBit_two_pow_self]
      cases hp : p.1.testBit m <;> cases hq : p.2.testBit m <;> simp_all
  · have hpow : (2 ^ k).testBit m = false := by
      rw [Nat.testBit_two_pow]
      exact decide_eq_false (Ne.symm hmk)
    by_cases heq : p.1.testBit k = p.2.testBit k
    · simp [heq, hmk]
    · simp [heq, hmk, hpow]

theorem exchange_swap (k : Nat) (p : Nat × Nat) : exchange k p.swap = (exchange k p).swap := by
  rw [exchange, exchange]
  by_cases heq : p.1.testBit k = p.2.testBit k
  · simp [heq]
  · simp [heq, Ne.symm heq]

theorem testBit_exchange_snd (k : Nat) (p : Nat × Nat) (m : Nat) :
    (exchange k p).2.testBit m = if m = k then p.1.testBit k else p.2.testBit m := by
  have hfst := testBit_exchange_fst k p.swap m
  rwa [exchange_swap] at hfst

variable {i k j : Nat}

/-- Flipping a clear digit adds it. -/
theorem xor_two_pow_of_clear (h : i.testBit k = false) : i ^^^ 2 ^ k = i + 2 ^ k := by
  have hlow : i % 2 ^ k < 2 ^ k := Nat.mod_lt _ (Nat.two_pow_pos k)
  have hsplit : i = 2 ^ k * (i / 2 ^ k) + i % 2 ^ k := (Nat.div_add_mod _ _).symm
  have heven : i / 2 ^ k % 2 = 0 := by
    rw [Nat.testBit_eq_decide_div_mod_eq, decide_eq_false_iff_not] at h
    omega
  have hsum : i + 2 ^ k = 2 ^ k * (i / 2 ^ k + 1) + i % 2 ^ k := by
    rw [Nat.mul_add]
    omega
  apply Nat.eq_of_testBit_eq
  intro m
  rw [Nat.testBit_xor, Nat.testBit_two_pow, hsum, Nat.testBit_two_pow_mul_add _ hlow]
  nth_rewrite 1 [hsplit]
  rw [Nat.testBit_two_pow_mul_add _ hlow]
  by_cases hm : m < k
  · have hne : k ≠ m := by omega
    simp [hm, hne]
  · rw [if_neg hm, if_neg hm]
    obtain ⟨l, rfl⟩ : ∃ l, m = k + l := ⟨m - k, by omega⟩
    rw [Nat.add_sub_cancel_left]
    cases l with
    | zero =>
      have hodd : (i / 2 ^ k + 1) % 2 = 1 := by omega
      simp [Nat.testBit_zero, heven, hodd]
    | succ l =>
      have hhalf : (i / 2 ^ k + 1) / 2 = i / 2 ^ k / 2 := by omega
      simp [Nat.testBit_succ, hhalf]

/-- Flipping a set digit takes it away. -/
theorem xor_two_pow_of_set (h : i.testBit k = true) : 2 ^ k ≤ i ∧ i ^^^ 2 ^ k = i - 2 ^ k := by
  have hclear : (i ^^^ 2 ^ k).testBit k = false := by
    simp [h]
  have hback := xor_two_pow_of_clear hclear
  rw [Nat.xor_assoc, Nat.xor_self, Nat.xor_zero] at hback
  omega

theorem add_two_pow_lt {e : Nat} (hi : i < 2 ^ e) (hk : k < e) (h : i.testBit k = false) :
    i + 2 ^ k < 2 ^ e := by
  rw [← xor_two_pow_of_clear h]
  exact Nat.xor_lt_two_pow hi (Nat.pow_lt_pow_right (by omega) hk)

/-- A bit that comes from the same place, or from the one in which a clear digit of one index and
a set digit of the other are flipped, comes from where digit `k` is exchanged. -/
theorem eq_exchange {b : Bool} {f : Nat × Nat → Bool}
    (hclear : i.testBit k = false → b = if j.testBit k then f (i + 2 ^ k, j - 2 ^ k) else f (i, j))
    (hset : 2 ^ k ≤ i → i.testBit k = true →
      b = if j.testBit k then f (i, j) else f (i - 2 ^ k, j + 2 ^ k)) :
    b = f (exchange k (i, j)) := by
  rw [exchange]
  cases hrow : i.testBit k with
  | false =>
    rw [hclear hrow]
    cases hcol : j.testBit k with
    | false => simp
    | true => simp [xor_two_pow_of_clear hrow, (xor_two_pow_of_set hcol).2]
  | true =>
    obtain ⟨hle, hsub⟩ := xor_two_pow_of_set hrow
    rw [hset hle hrow]
    cases hcol : j.testBit k with
    | false => simp [xor_two_pow_of_clear hcol, hsub]
    | true => simp

section Words

/-- Shifts of words by one digit of the column: up to where it is set, down to where it is
clear.  A shift down to where it is set brings in no more than stood there. -/
structure DigitShifts (k : Nat) (up down : UInt64 → UInt64) : Prop where
  up_set (x : UInt64) {m : Nat} : m < 64 → m.testBit k = true →
    (up x).toNat.testBit m = x.toNat.testBit (m - 2 ^ k)
  down_clear (x : UInt64) {m : Nat} : m < 64 → m.testBit k = false →
    (down x).toNat.testBit m = x.toNat.testBit (m + 2 ^ k)
  down_set (x : UInt64) {m : Nat} : m < 64 → m.testBit k = true →
    (down x).toNat.testBit m = true → x.toNat.testBit (m + 2 ^ k) = true

theorem testBit_shiftLeft (x : UInt64) {n m : Nat} (hn : n < 64) (hm : m < 64) :
    (x <<< UInt64.ofNat n).toNat.testBit m = (decide (n ≤ m) && x.toNat.testBit (m - n)) := by
  have hdistance : (UInt64.ofNat n).toNat % 64 = n := by
    rw [UInt64.toNat_ofNat']
    omega
  rw [UInt64.toNat_shiftLeft, hdistance, Nat.testBit_mod_two_pow, Nat.testBit_shiftLeft]
  simp [hm]

theorem testBit_shiftRight (x : UInt64) {n : Nat} (hn : n < 64) (m : Nat) :
    (x >>> UInt64.ofNat n).toNat.testBit m = x.toNat.testBit (n + m) := by
  have hdistance : (UInt64.ofNat n).toNat % 64 = n := by
    rw [UInt64.toNat_ofNat']
    omega
  rw [UInt64.toNat_shiftRight, hdistance, Nat.testBit_shiftRight]

/-- Shifts of whole words. -/
theorem digitShifts_words {k : Nat} (hk : k < 6) :
    DigitShifts k (Register.wordUp (2 ^ k)) (Register.wordDown (2 ^ k)) := by
  have hpow : 2 ^ k < 64 := Nat.pow_lt_pow_right (n := 6) (by omega) hk
  have hdown : ∀ (x : UInt64) (m : Nat),
      (Register.wordDown (2 ^ k) x).toNat.testBit m = x.toNat.testBit (m + 2 ^ k) := by
    intro x m
    rw [Register.wordDown, if_pos hpow, testBit_shiftRight x hpow, Nat.add_comm]
  refine ⟨fun x m hm hset => ?_, fun x m _ _ => hdown x m, fun x m _ _ h => hdown x m ▸ h⟩
  have hle := (xor_two_pow_of_set hset).1
  rw [Register.wordUp, if_pos hpow, testBit_shiftLeft x hpow hm]
  simp [hle]

/-- The bits of a word whose quarters are mapped. -/
theorem testBit_mapQuarters (f : UInt16 → UInt16) (x : UInt64) {m : Nat} (hm : m < 64) :
    (Register.mapQuarters f x).toNat.testBit m
      = (f (x >>> UInt64.ofNat (16 * (m / 16))).toUInt16).toNat.testBit (m % 16) := by
  have hquarter : ∀ (q : UInt16) {n : Nat}, n < 64 → (q.toUInt64 <<< UInt64.ofNat n).toNat.testBit m
      = (decide (n ≤ m) && q.toNat.testBit (m - n)) := by
    intro q n hn
    rw [testBit_shiftLeft _ hn hm, UInt16.toNat_toUInt64]
  have hhigh : ∀ (q : UInt16) {n : Nat}, 16 ≤ n → q.toNat.testBit n = false := by
    intro q n hn
    exact testBit_of_lt_of_le q.toNat_lt hn
  have h16 := hquarter (f (x >>> 16).toUInt16) (n := 16) (by omega)
  have h32 := hquarter (f (x >>> 32).toUInt16) (n := 32) (by omega)
  have h48 := hquarter (f (x >>> 48).toUInt16) (n := 48) (by omega)
  have hbits : (Register.mapQuarters f x).toNat.testBit m
      = ((((f x.toUInt16).toNat.testBit m
        || (decide (16 ≤ m) && (f (x >>> 16).toUInt16).toNat.testBit (m - 16)))
        || (decide (32 ≤ m) && (f (x >>> 32).toUInt16).toNat.testBit (m - 32)))
        || (decide (48 ≤ m) && (f (x >>> 48).toUInt16).toNat.testBit (m - 48))) := by
    rw [← h16, ← h32, ← h48, Register.mapQuarters]
    simp only [UInt64.toNat_or, Nat.testBit_or, UInt16.toNat_toUInt64]
    rfl
  rw [hbits]
  -- only the quarter that holds position `m` reaches it
  obtain h | h | h | h : m / 16 = 0 ∨ m / 16 = 1 ∨ m / 16 = 2 ∨ m / 16 = 3 := by omega
  · have hmod : m % 16 = m := by omega
    simp [h, hmod, show ¬ 16 ≤ m by omega, show ¬ 32 ≤ m by omega, show ¬ 48 ≤ m by omega]
  · have hmod : m % 16 = m - 16 := by omega
    simp [h, hmod, hhigh _ (show 16 ≤ m by omega), show 16 ≤ m by omega, show ¬ 32 ≤ m by omega,
      show ¬ 48 ≤ m by omega]
  · have hmod : m % 16 = m - 32 := by omega
    simp [h, hmod, hhigh _ (show 16 ≤ m by omega), hhigh _ (show 16 ≤ m - 16 by omega),
      show 32 ≤ m by omega, show ¬ 48 ≤ m by omega]
  · have hmod : m % 16 = m - 48 := by omega
    simp [h, hmod, hhigh _ (show 16 ≤ m by omega), hhigh _ (show 16 ≤ m - 16 by omega),
      hhigh _ (show 16 ≤ m - 32 by omega), show 48 ≤ m by omega]

/-- The bits of a quarter are those of its word. -/
theorem testBit_quarter (x : UInt64) {a t : Nat} (ha : a < 4) (ht : t < 16) :
    (x >>> UInt64.ofNat (16 * a)).toUInt16.toNat.testBit t = x.toNat.testBit (16 * a + t) := by
  rw [UInt64.toNat_toUInt16, Nat.testBit_mod_two_pow, testBit_shiftRight x (by omega)]
  simp [ht]

/-- Shifts of quarters by one place. -/
theorem digitShifts_quarters : DigitShifts 0 (Register.quartersUp 1) (Register.quartersDown 1) := by
  have hparity : ∀ {m : Nat}, m.testBit 0 = decide (m % 2 = 1) := Nat.testBit_zero _
  have hdown : ∀ (x : UInt64) {m : Nat}, m < 64 → (Register.quartersDown 1 x).toNat.testBit m
      = (decide (m % 16 < 15) && x.toNat.testBit (m + 1)) := by
    intro x m hm
    rw [Register.quartersDown, testBit_mapQuarters _ x hm, if_pos (by decide)]
    rw [UInt16.toNat_shiftRight, Nat.testBit_shiftRight]
    by_cases hlast : m % 16 < 15
    · have hplace : 16 * (m / 16) + (1 + m % 16) = m + 1 := by omega
      have hquarter := testBit_quarter x (a := m / 16) (t := 1 + m % 16) (by omega) (by omega)
      rw [hplace] at hquarter
      simp only [hlast, decide_true, Bool.true_and]
      exact hquarter
    · have hfull : 1 + m % 16 = 16 := by omega
      simp only [hlast, decide_false, Bool.false_and]
      exact testBit_of_lt_of_le (UInt16.toNat_lt _) (Nat.le_of_eq hfull.symm)
  refine ⟨fun x m hm hset => ?_, fun x m hm hclear => ?_, fun x m hm _ h => ?_⟩
  · rw [hparity, decide_eq_true_iff] at hset
    rw [Register.quartersUp, testBit_mapQuarters _ x hm, if_pos (by decide)]
    have hplace : 16 * (m / 16) + (m % 16 - 1) = m - 1 := by omega
    have hquarter := testBit_quarter x (a := m / 16) (t := m % 16 - 1) (by omega) (by omega)
    rw [hplace] at hquarter
    rw [UInt16.toNat_shiftLeft, Nat.testBit_mod_two_pow, Nat.testBit_shiftLeft]
    have hup : 1 ≤ m % 16 := by omega
    have hin : m % 16 < 16 := by omega
    simp only [hin, decide_true, Bool.true_and]
    exact (congrArg (_ && ·) hquarter).trans (by simp [hup])
  · rw [hparity, decide_eq_false_iff_not] at hclear
    rw [hdown x hm]
    simp [show m % 16 < 15 by omega]
  · rw [hdown x hm, Bool.and_eq_true] at h
    exact h.2

variable {k m : Nat} {mask : UInt64} {up down : UInt64 → UInt64}

/-- The upper row gets the lower bits of the other where its column digit is set. -/
theorem testBit_upper (hshifts : DigitShifts k up down)
    (hmask : ∀ m < 64, mask.toNat.testBit m = m.testBit k) (hm : m < 64) (x y : UInt64) :
    (x ^^^ ((x ^^^ up y) &&& mask)).toNat.testBit m
      = if m.testBit k then y.toNat.testBit (m - 2 ^ k) else x.toNat.testBit m := by
  simp only [UInt64.toNat_xor, UInt64.toNat_and, Nat.testBit_xor, Nat.testBit_and, hmask m hm]
  cases hbit : m.testBit k with
  | false => simp
  | true => simp [hshifts.up_set y hm hbit]

/-- The lower row gets the upper bits of the other where its column digit is clear. -/
theorem testBit_lower (hk : k < 6) (hshifts : DigitShifts k up down)
    (hmask : ∀ m < 64, mask.toNat.testBit m = m.testBit k) (hm : m < 64) (x y : UInt64) :
    (y ^^^ down ((x ^^^ up y) &&& mask)).toNat.testBit m
      = if m.testBit k then y.toNat.testBit m else x.toNat.testBit (m + 2 ^ k) := by
  rw [UInt64.toNat_xor, Nat.testBit_xor]
  cases hbit : m.testBit k with
  | false =>
    have hset : (m + 2 ^ k).testBit k = true := by
      rw [Nat.add_comm, Nat.testBit_two_pow_add_eq, hbit]
      rfl
    have hlt : m + 2 ^ k < 64 := add_two_pow_lt (e := 6) hm hk hbit
    rw [hshifts.down_clear _ hm hbit]
    simp only [UInt64.toNat_xor, UInt64.toNat_and, Nat.testBit_xor, Nat.testBit_and,
      hmask _ hlt, hset, hshifts.up_set y hlt hset, Nat.add_sub_cancel]
    simp [Bool.xor_comm (y.toNat.testBit m)]
  | true =>
    have hclear : (m + 2 ^ k).testBit k = false := by
      rw [Nat.add_comm, Nat.testBit_two_pow_add_eq, hbit]
      rfl
    have hnone : mask.toNat.testBit (m + 2 ^ k) = false := by
      by_cases hlt : m + 2 ^ k < 64
      · rw [hmask _ hlt, hclear]
      · exact testBit_of_lt_of_le mask.toNat_lt (by omega)
    have hkept : (down ((x ^^^ up y) &&& mask)).toNat.testBit m = false := by
      rw [Bool.eq_false_iff]
      intro h
      have hcame := hshifts.down_set _ hm hbit h
      rw [UInt64.toNat_and, Nat.testBit_and, hnone, Bool.and_false] at hcame
      cases hcame
    simp [hkept]

end Words

/-- The bit in a row and a column. -/
def bitAt (rows : Vector Block 128) (p : Nat × Nat) : Bool :=
  (rows[p.1]?.getD .zero).bit p.2

theorem bitAt_of_lt (rows : Vector Block 128) (hi : i < 128) (j : Nat) :
    bitAt rows (i, j) = rows[i].bit j := by
  simp [bitAt, hi]

/-- Digit `k` of a column is the same in both halves of a row. -/
theorem testBit_half (hk : k < 6) (m : Nat) : (64 + m).testBit k = m.testBit k := by
  rw [show 64 = 2 ^ 6 from rfl, Nat.testBit_two_pow_add_gt hk]

section Rows

/-- What becomes of the upper row of a pair. -/
def upperRow (up : UInt64 → UInt64) (mask : UInt64) (x y : Block) : Block :=
  ⟨x.lo ^^^ ((x.lo ^^^ up y.lo) &&& mask), x.hi ^^^ ((x.hi ^^^ up y.hi) &&& mask)⟩

/-- What becomes of the lower row of a pair. -/
def lowerRow (up down : UInt64 → UInt64) (mask : UInt64) (x y : Block) : Block :=
  ⟨y.lo ^^^ down ((x.lo ^^^ up y.lo) &&& mask), y.hi ^^^ down ((x.hi ^^^ up y.hi) &&& mask)⟩

variable {k : Nat} {mask : UInt64} {up down : UInt64 → UInt64} (hk : k < 6)
  (hshifts : DigitShifts k up down) (hmask : ∀ m < 64, mask.toNat.testBit m = m.testBit k)
include hk hshifts hmask

theorem bit_upperRow (x y : Block) {j : Nat} (hj : j < 128) :
    (upperRow up mask x y).bit j = if j.testBit k then y.bit (j - 2 ^ k) else x.bit j := by
  rcases Block.half_cases hj with hj | ⟨m, hm, rfl⟩
  · rw [Block.bit_of_lt _ hj, Block.bit_of_lt _ hj,
      Block.bit_of_lt _ (Nat.lt_of_le_of_lt (Nat.sub_le _ _) hj)]
    exact testBit_upper hshifts hmask hj x.lo y.lo
  · rw [Block.bit_add _ hm, Block.bit_add _ hm, testBit_half hk]
    apply (testBit_upper hshifts hmask hm x.hi y.hi).trans
    cases hbit : m.testBit k with
    | false => rfl
    | true =>
      have hle := (xor_two_pow_of_set hbit).1
      rw [if_pos rfl, if_pos rfl, Nat.add_sub_assoc hle,
        Block.bit_add _ (Nat.lt_of_le_of_lt (Nat.sub_le _ _) hm)]

theorem bit_lowerRow (x y : Block) {j : Nat} (hj : j < 128) :
    (lowerRow up down mask x y).bit j = if j.testBit k then y.bit j else x.bit (j + 2 ^ k) := by
  have hlt : ∀ m < 64, m.testBit k = false → m + 2 ^ k < 64 := fun m hm =>
    add_two_pow_lt (e := 6) hm hk
  rcases Block.half_cases hj with hj | ⟨m, hm, rfl⟩
  · rw [Block.bit_of_lt _ hj, Block.bit_of_lt _ hj]
    apply (testBit_lower hk hshifts hmask hj x.lo y.lo).trans
    cases hbit : j.testBit k with
    | false =>
      rw [if_neg (by decide), if_neg (by decide), Block.bit_of_lt _ (hlt j hj hbit)]
    | true => rfl
  · rw [Block.bit_add _ hm, Block.bit_add _ hm, testBit_half hk]
    apply (testBit_lower hk hshifts hmask hm x.hi y.hi).trans
    cases hbit : m.testBit k with
    | false =>
      rw [if_neg (by decide), if_neg (by decide), Nat.add_assoc,
        Block.bit_add _ (hlt m hm hbit)]
    | true => rfl

end Rows

section Steps

/-- The row of a register by the number of the row in the square. -/
def laneOf (r : Register) (i : Nat) : Block :=
  if i % 2 = 0 then r.low else r.high

/-- The bit in a row and a column of the square that is held in registers. -/
def rowBit (rs : Vector Register 64) (p : Nat × Nat) : Bool :=
  (laneOf (rs[p.1 / 2]?.getD default) p.1).bit p.2

variable {i j : Nat}

theorem rowBit_inPairs (offset : Nat) (f : Register → Register → Register × Register)
    (rs : Vector Register 64) (hi : i < 128) (j : Nat) :
    rowBit (Register.inPairs offset f rs) (i, j) = (laneOf
      (if i / 2 / offset % 2 = 0 then
        (f (rs[i / 2]?.getD default) (rs[i / 2 + offset]?.getD default)).1
      else (f (rs[i / 2 - offset]?.getD default) (rs[i / 2]?.getD default)).2) i).bit j := by
  have hreg : i / 2 < 64 := by omega
  have hback : i / 2 - offset < 64 := by omega
  simp [rowBit, Register.inPairs, hreg, hback]

/-- The digit of a row that a register and its pair differ in. -/
theorem digit_clear_iff (i k : Nat) : i / 2 ^ k % 2 = 0 ↔ i.testBit k = false := by
  rw [Nat.testBit_eq_decide_div_mod_eq, decide_eq_false_iff_not]
  omega

/-- **The first step exchanges the first digit**, within every register. -/
theorem rowBit_transposePairs (rs : Vector Register 64) (hi : i < 128) (hj : j < 128) :
    rowBit (Register.inPairs 1 Register.transposePairs rs) (i, j)
      = rowBit rs (exchange 0 (i, j)) := by
  let mask := Register.ofQuarter 0b1010101010101010
  have hmask : ∀ m < 64, mask.toNat.testBit m = m.testBit 0 := by decide
  have hupper : ∀ x y : Block, (upperRow (Register.quartersUp 1) mask x y).bit j
      = if j.testBit 0 then y.bit (j - 2 ^ 0) else x.bit j :=
    fun x y => bit_upperRow (by decide) digitShifts_quarters hmask x y hj
  have hlower : ∀ x y : Block, (lowerRow (Register.quartersUp 1) (Register.quartersDown 1) mask x y).bit j
      = if j.testBit 0 then y.bit j else x.bit (j + 2 ^ 0) :=
    fun x y => bit_lowerRow (by decide) digitShifts_quarters hmask x y hj
  -- the two registers of a pair are transposed each for itself
  have hself : rowBit (Register.inPairs 1 Register.transposePairs rs) (i, j)
      = (laneOf ⟨upperRow (Register.quartersUp 1) mask (rs[i / 2]?.getD default).low
            (rs[i / 2]?.getD default).high,
          lowerRow (Register.quartersUp 1) (Register.quartersDown 1) mask
            (rs[i / 2]?.getD default).low (rs[i / 2]?.getD default).high⟩ i).bit j := by
    rw [rowBit_inPairs _ _ _ hi]
    split <;> rfl
  have hparity : i.testBit 0 = false ↔ i % 2 = 0 := by
    rw [← digit_clear_iff, Nat.pow_zero, Nat.div_one]
  rw [hself]
  refine eq_exchange (fun hclear => ?_) fun _ hset => ?_
  · have hrow := hparity.mp hclear
    have hhalf : (i + 2 ^ 0) / 2 = i / 2 := by omega
    have hodd : (i + 2 ^ 0) % 2 ≠ 0 := by omega
    rw [laneOf, if_pos hrow, hupper]
    simp only [rowBit, laneOf, hrow, hhalf, hodd, if_true, if_false]
  · have hrow : i % 2 ≠ 0 := mt hparity.mpr (by simp [hset])
    have hhalf : (i - 2 ^ 0) / 2 = i / 2 := by omega
    have heven : (i - 2 ^ 0) % 2 = 0 := by omega
    rw [laneOf, if_neg hrow, hlower]
    simp only [rowBit, laneOf, hrow, hhalf, heven, if_true, if_false]

/-- **A step between registers exchanges one digit.** -/
theorem rowBit_swapBlocks {n : Nat} (hn : n < 5) {mask : UInt64}
    (hmask : ∀ m < 64, mask.toNat.testBit m = m.testBit (n + 1)) (rs : Vector Register 64)
    (hi : i < 128) (hj : j < 128) :
    rowBit (Register.inPairs (2 ^ n) (Register.swapBlocks (2 ^ (n + 1)) mask) rs) (i, j)
      = rowBit rs (exchange (n + 1) (i, j)) := by
  have hk : n + 1 < 6 := by omega
  have hshifts := digitShifts_words hk
  have hdouble : 2 ^ (n + 1) = 2 * 2 ^ n := Nat.pow_succ'
  have hdigit : i / 2 / 2 ^ n % 2 = 0 ↔ i.testBit (n + 1) = false := by
    rw [← digit_clear_iff, Nat.div_div_eq_div_mul, ← hdouble]
  have hupper : ∀ x y : Register,
      (laneOf (Register.swapBlocks (2 ^ (n + 1)) mask x y).1 i).bit j
        = if j.testBit (n + 1) then (laneOf y i).bit (j - 2 ^ (n + 1)) else (laneOf x i).bit j := by
    intro x y
    rw [← bit_upperRow hk hshifts hmask _ _ hj]
    unfold laneOf
    split <;> rfl
  have hlower : ∀ x y : Register,
      (laneOf (Register.swapBlocks (2 ^ (n + 1)) mask x y).2 i).bit j
        = if j.testBit (n + 1) then (laneOf y i).bit j else (laneOf x i).bit (j + 2 ^ (n + 1)) := by
    intro x y
    rw [← bit_lowerRow hk hshifts hmask _ _ hj]
    unfold laneOf
    split <;> rfl
  rw [rowBit_inPairs _ _ _ hi]
  refine eq_exchange (fun hclear => ?_) fun hle hset => ?_
  · have hhalf : (i + 2 ^ (n + 1)) / 2 = i / 2 + 2 ^ n := by omega
    have hparity : (i + 2 ^ (n + 1)) % 2 = i % 2 := by omega
    rw [if_pos (hdigit.mpr hclear), hupper]
    simp only [rowBit, laneOf, hhalf, hparity]
  · have hhalf : (i - 2 ^ (n + 1)) / 2 = i / 2 - 2 ^ n := by omega
    have hparity : (i - 2 ^ (n + 1)) % 2 = i % 2 := by omega
    rw [if_neg (mt hdigit.mp (by simp [hset])), hlower]
    simp only [rowBit, laneOf, hhalf, hparity]

/-- **Swapping the quadrants exchanges the last digit.** -/
theorem rowBit_swapQuadrants (rs : Vector Register 64) (hi : i < 128) (hj : j < 128) :
    rowBit (Register.inPairs 32 Register.swapQuadrants rs) (i, j)
      = rowBit rs (exchange 6 (i, j)) := by
  have hdigit : ∀ m < 128, m.testBit 6 = decide (64 ≤ m) := by
    intro m hm
    rw [Nat.testBit_eq_decide_div_mod_eq, decide_eq_decide]
    omega
  have hlow : ∀ x y : Register, laneOf (Register.swapQuadrants x y).1 i
      = ⟨(laneOf x i).lo, (laneOf y i).lo⟩ := by
    intro x y
    unfold laneOf
    split <;> rfl
  have hhigh : ∀ x y : Register, laneOf (Register.swapQuadrants x y).2 i
      = ⟨(laneOf x i).hi, (laneOf y i).hi⟩ := by
    intro x y
    unfold laneOf
    split <;> rfl
  rw [rowBit_inPairs _ _ _ hi]
  refine eq_exchange (fun hclear => ?_) fun hle _ => ?_
  · have hrow : i < 64 := by simpa [hdigit i hi] using hclear
    have hhalf : (i + 2 ^ 6) / 2 = i / 2 + 32 := by omega
    have hparity : (i + 2 ^ 6) % 2 = i % 2 := by omega
    rw [if_pos (by omega), hlow, hdigit j hj]
    rcases Block.half_cases hj with hcol | ⟨m, hm, rfl⟩
    · rw [if_neg (by simp; omega), Block.bit_of_lt _ hcol, rowBit, Block.bit_of_lt _ hcol]
    · rw [if_pos (by simp), show 64 + m - 2 ^ 6 = m by omega, Block.bit_add _ hm, rowBit,
        Block.bit_of_lt _ hm]
      simp only [laneOf, hhalf, hparity]
  · have hhalf : (i - 2 ^ 6) / 2 = i / 2 - 32 := by omega
    have hparity : (i - 2 ^ 6) % 2 = i % 2 := by omega
    rw [if_neg (by omega), hhigh, hdigit j hj]
    rcases Block.half_cases hj with hcol | ⟨m, hm, rfl⟩
    · rw [if_neg (by simp; omega), show j + 2 ^ 6 = 64 + j by omega, Block.bit_of_lt _ hcol, rowBit,
        Block.bit_add _ hcol]
      simp only [laneOf, hhalf, hparity]
    · rw [if_pos (by simp), Block.bit_add _ hm, rowBit, Block.bit_add _ hm]

end Steps

theorem exchange_lt (hk : k < 7) {p : Nat × Nat} (h₁ : p.1 < 128) (h₂ : p.2 < 128) :
    (exchange k p).1 < 128 ∧ (exchange k p).2 < 128 := by
  have hpow : 2 ^ k < 2 ^ 7 := Nat.pow_lt_pow_right (by omega) hk
  rw [exchange]
  split
  · exact ⟨h₁, h₂⟩
  · exact ⟨Nat.xor_lt_two_pow (n := 7) h₁ hpow, Nat.xor_lt_two_pow (n := 7) h₂ hpow⟩

/-- Exchanging all seven digits exchanges row and column. -/
theorem exchange_all (hi : i < 128) (hj : j < 128) :
    exchange 0 (exchange 1 (exchange 2 (exchange 3 (exchange 4 (exchange 5 (exchange 6 (i, j)))))))
      = (j, i) := by
  have hhigh : ∀ {x y : Nat}, x < 128 → y < 128 → ∀ m, 7 ≤ m → x.testBit m = y.testBit m := by
    intro x y hx hy m hm
    rw [testBit_of_lt_of_le (n := 7) hx hm, testBit_of_lt_of_le (n := 7) hy hm]
  have hdigits : ∀ m, 7 ≤ m ∨ m = 0 ∨ m = 1 ∨ m = 2 ∨ m = 3 ∨ m = 4 ∨ m = 5 ∨ m = 6 := by omega
  have hfst : ∀ {x y : Nat}, x < 128 → y < 128 → (exchange 0 (exchange 1 (exchange 2 (exchange 3
      (exchange 4 (exchange 5 (exchange 6 (x, y)))))))).1 = y := by
    intro x y hx hy
    apply Nat.eq_of_testBit_eq
    intro m
    simp only [testBit_exchange_fst, testBit_exchange_snd]
    rcases hdigits m with hm | rfl | rfl | rfl | rfl | rfl | rfl | rfl
    · rw [if_neg (by omega), if_neg (by omega), if_neg (by omega), if_neg (by omega),
        if_neg (by omega), if_neg (by omega), if_neg (by omega)]
      exact hhigh hx hy m hm
    all_goals rfl
  ext1
  · exact hfst hi hj
  · have hswap := hfst hj hi
    rw [← Prod.swap_prod_mk] at hswap
    simpa only [exchange_swap, Prod.fst_swap] using hswap

/-- A pattern whose length divides the word is repeated all over it. -/
theorem testBit_repeated {pattern : UInt64} {length e m : Nat} (hlength : length * 2 ^ e = 64)
    (hpattern : ∀ t, length ≤ t → pattern.toNat.testBit t = false) (hm : m < 64) :
    (Register.repeated pattern length).toNat.testBit m = pattern.toNat.testBit (m % length) := by
  fun_induction Register.repeated pattern length generalizing e with
  | case1 pattern length hshort ih =>
    obtain ⟨e, rfl⟩ : ∃ d, e = d + 1 := by
      cases e with
      | zero => omega
      | succ e => exact ⟨e, rfl⟩
    have hdouble : 2 * length * 2 ^ e = 64 := by rw [← hlength]; ring
    have hnext : ∀ {t : Nat}, t < 64 →
        (pattern ||| pattern <<< UInt64.ofNat length).toNat.testBit t
          = (pattern.toNat.testBit t || (decide (length ≤ t) && pattern.toNat.testBit (t - length))) := by
      intro t ht
      rw [UInt64.toNat_or, Nat.testBit_or, testBit_shiftLeft pattern hshort.2 ht]
    have hclear : ∀ t, 2 * length ≤ t →
        (pattern ||| pattern <<< UInt64.ofNat length).toNat.testBit t = false := by
      intro t ht
      by_cases hword : t < 64
      · rw [hnext hword, hpattern t (by omega), hpattern (t - length) (by omega)]
        simp
      · exact testBit_of_lt_of_le (UInt64.toNat_lt _) (by omega)
    have hmod : m % (2 * length) = m % length + length * (m / length % 2) := by
      rw [Nat.mul_comm 2 length, Nat.mod_mul]
    have hlow : m % length < length := Nat.mod_lt _ hshort.1
    have hle := Nat.mod_le m (2 * length)
    rw [ih hdouble hclear, hnext (by omega)]
    rcases Nat.mod_two_eq_zero_or_one (m / length) with hhalf | hhalf
    · rw [hhalf, Nat.mul_zero, Nat.add_zero] at hmod
      simp [hmod, Nat.not_le_of_lt hlow]
    · rw [hhalf, Nat.mul_one] at hmod
      rw [hmod, hpattern _ (Nat.le_add_left _ _), Nat.add_sub_cancel]
      simp
  | case2 pattern length hfull =>
    have hpos : 0 < 2 ^ e := Nat.two_pow_pos e
    have hword : length = 64 := by
      rcases Nat.eq_zero_or_pos length with rfl | hlpos
      · omega
      · have hle : length ≤ length * 2 ^ e := Nat.le_mul_of_pos_right _ hpos
        omega
    rw [hword, Nat.mod_eq_of_lt hm]

/-- The masks of the five levels are the columns with the digit of the level set. -/
theorem testBit_levelMask {n : Nat} (hn : n < 5) :
    ∀ m < 64, (Register.levelMask (n + 1)).toNat.testBit m = m.testBit (n + 1) := by
  have hlevel : ∀ {pattern : UInt64} {l e : Nat}, 2 ^ (l + 1) * 2 ^ e = 64 →
      pattern.toNat < 2 ^ 2 ^ (l + 1) → (∀ t < 2 ^ (l + 1), pattern.toNat.testBit t = t.testBit l) →
      ∀ m < 64, (Register.repeated pattern (2 ^ (l + 1))).toNat.testBit m = m.testBit l := by
    intro pattern l e hlength hlt hpattern m hm
    rw [testBit_repeated hlength (fun t => testBit_of_lt_of_le hlt) hm, hpattern _ (Nat.mod_lt _ (Nat.two_pow_pos _)),
      Nat.testBit_mod_two_pow]
    simp
  obtain rfl | rfl | rfl | rfl | rfl : n = 0 ∨ n = 1 ∨ n = 2 ∨ n = 3 ∨ n = 4 := by omega
  · exact hlevel (l := 1) (e := 4) (by decide) (by decide) (by decide)
  · exact hlevel (l := 2) (e := 3) (by decide) (by decide) (by decide)
  · exact hlevel (l := 3) (e := 2) (by decide) (by decide) (by decide)
  · exact hlevel (l := 4) (e := 1) (by decide) (by decide) (by decide)
  · -- the last mask is written out
    exact (by decide : ∀ m < 64, (0xffffffff00000000 : UInt64).toNat.testBit m = m.testBit 5)

/-- All seven steps. -/
theorem rowBit_transposeAll (rs : Vector Register 64) (hi : i < 128) (hj : j < 128) :
    rowBit (Register.transposeAll rs) (i, j) = rowBit rs (j, i) := by
  have hlevel : ∀ {n : Nat}, n < 5 → ∀ (rs : Vector Register 64) (p : Nat × Nat),
      p.1 < 128 ∧ p.2 < 128 →
      rowBit (Register.inPairs (Nat.pow 2 (n + 1 - 1))
        (Register.swapBlocks (Nat.pow 2 (n + 1)) (Register.levelMask (n + 1))) rs) p
        = rowBit rs (exchange (n + 1) p) := by
    intro n hn rs p hp
    exact rowBit_swapBlocks hn (testBit_levelMask hn) rs hp.1 hp.2
  have h₆ := exchange_lt (k := 6) (p := (i, j)) (by omega) hi hj
  have h₅ := exchange_lt (k := 5) (by omega) h₆.1 h₆.2
  have h₄ := exchange_lt (k := 4) (by omega) h₅.1 h₅.2
  have h₃ := exchange_lt (k := 3) (by omega) h₄.1 h₄.2
  have h₂ := exchange_lt (k := 2) (by omega) h₃.1 h₃.2
  have h₁ := exchange_lt (k := 1) (by omega) h₂.1 h₂.2
  calc rowBit (Register.transposeAll rs) (i, j)
      = rowBit rs (exchange 0 (exchange 1 (exchange 2 (exchange 3 (exchange 4 (exchange 5
          (exchange 6 (i, j)))))))) := by
        rw [Register.transposeAll, rowBit_swapQuadrants _ hi hj]
        simp only [List.foldl_cons, List.foldl_nil]
        rw [hlevel (n := 4) (by omega) _ _ h₆, hlevel (n := 3) (by omega) _ _ h₅,
          hlevel (n := 2) (by omega) _ _ h₄, hlevel (n := 1) (by omega) _ _ h₃,
          hlevel (n := 0) (by omega) _ _ h₂]
        exact rowBit_transposePairs rs h₁.1 h₁.2
    _ = rowBit rs (j, i) := by rw [exchange_all hi hj]

theorem rowBit_registers (s : Square) (hi : i < 128) (j : Nat) :
    rowBit s.registers (i, j) = s.rows[i].bit j := by
  have hreg : i / 2 < 64 := by omega
  unfold rowBit laneOf
  by_cases heven : i % 2 = 0
  · have hrow : 2 * (i / 2) = i := by omega
    simp [registers, hreg, heven, hrow]
  · have hrow : 2 * (i / 2) + 1 = i := by omega
    simp [registers, hreg, heven, hrow]

theorem bit_ofRegisters (rs : Vector Register 64) (hi : i < 128) (j : Nat) :
    (ofRegisters rs).rows[i].bit j = rowBit rs (i, j) := by
  have hreg : i / 2 < 64 := by omega
  simp [ofRegisters, rowBit, laneOf, hreg]

/-- **Rows and columns change places.** -/
theorem bit_transpose (s : Square) (hi : i < 128) (hj : j < 128) :
    s.transpose.rows[i].bit j = s.rows[j].bit i := by
  rw [transpose, bit_ofRegisters _ hi, rowBit_transposeAll _ hi hj, rowBit_registers s hj]

theorem row?_eq (h : i < 128) (s : Square) : s.row? i = some s.rows[i] := by
  simp [row?, h]

theorem row?_eq_none (h : ¬ i < 128) (s : Square) : s.row? i = none := by
  simp [row?, h]

/-- An entry of the transposed square is looked up where the other one has it, or missing in
both. -/
theorem get?_transpose (s : Square) (i j : Nat) : s.transpose.get? i j = s.get? j i := by
  unfold get?
  by_cases hi : i < 128
  · by_cases hj : j < 128
    · rw [row?_eq hi, row?_eq hj]
      simp only [Option.bind_eq_bind, Option.bind_some, Block.bit?, if_pos hi, if_pos hj,
        bit_transpose s hi hj]
    · rw [row?_eq hi, row?_eq_none hj]
      exact if_neg hj
  · by_cases hj : j < 128
    · rw [row?_eq_none hi, row?_eq hj]
      exact (if_neg hi).symm
    · rw [row?_eq_none hi, row?_eq_none hj]
      rfl

end Beaver.Square
