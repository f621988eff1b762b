import Mathlib
import Beaver.Proofs.Aes.Substitution
import Beaver.Proofs.WordBytes

/-!
# Encryption can be undone

Under one key schedule no two blocks have the same encryption (`encrypt_injective`), since every
stage of a round can be undone.  A column is its four bytes; the rows of a new column are shifted
in from four old ones, substituted, and mixed.  Mixing is linear over exclusive or, and a column
whose mixing is zero is zero itself (`eq_zero_of_mixed`).
-/

namespace Beaver.Aes

/-- A column of four bytes, the first row first. -/
def column (b0 b1 b2 b3 : UInt8) : UInt32 :=
  b0.toUInt32 ||| (b1.toUInt32 <<< 8) ||| (b2.toUInt32 <<< 16) ||| (b3.toUInt32 <<< 24)

/-- The column that a substituted first-row byte is mixed to. -/
def mixed (s : UInt8) : UInt32 :=
  column (double s) s s (double s ^^^ s)

variable {n i c d a b a' b' c' d' key : UInt32} {k : Nat} {s t : State}

/-- Bits above a number. -/
theorem toNat_or_shiftLeft {x : UInt32} (hn : n.toNat = k) (hk : k ≤ 24) (hx : x.toNat < 2 ^ k)
    (b : UInt8) : (x ||| (b.toUInt32 <<< n)).toNat = x.toNat + 2 ^ k * b.toNat := by
  have hb : b.toNat < 2 ^ 8 := b.toNat_lt
  have hup : (b.toUInt32 <<< n).toNat = 2 ^ k * b.toNat := by
    rw [UInt32.toNat_shiftLeft, UInt8.toNat_toUInt32, Nat.shiftLeft_eq, hn,
      Nat.mod_eq_of_lt (show k < 32 by omega), Nat.mul_comm, Nat.mod_eq_of_lt]
    calc 2 ^ k * b.toNat < 2 ^ k * 2 ^ 8 := Nat.mul_lt_mul_of_pos_left hb (Nat.two_pow_pos _)
      _ ≤ 2 ^ 24 * 2 ^ 8 := Nat.mul_le_mul_right _ (Nat.pow_le_pow_right (by omega) hk)
  rw [UInt32.toNat_or, hup, Nat.or_comm, ← Nat.two_pow_add_eq_or_of_lt hx, Nat.add_comm]

theorem toNat_column (b0 b1 b2 b3 : UInt8) :
    (column b0 b1 b2 b3).toNat =
      b0.toNat + 2 ^ 8 * b1.toNat + 2 ^ 16 * b2.toNat + 2 ^ 24 * b3.toNat := by
  have h0 : b0.toUInt32.toNat < 2 ^ 8 := b0.toNat_lt
  have h1 : b1.toNat < 2 ^ 8 := b1.toNat_lt
  have h2 : b2.toNat < 2 ^ 8 := b2.toNat_lt
  have hone := toNat_or_shiftLeft (n := 8) (k := 8) rfl (by decide) h0 b1
  have htwo := toNat_or_shiftLeft (n := 16) (k := 16) rfl (by decide)
    (hone.trans_lt (by omega)) b2
  have hall := toNat_or_shiftLeft (n := 24) (k := 24) rfl (by decide)
    (htwo.trans_lt (by omega)) b3
  rw [column, hall, htwo, hone, UInt8.toNat_toUInt32]

/-- A rotated column as a number. -/
theorem toNat_rotate (c : UInt32) (hn : n.toNat = k) (hpos : 0 < k) (hlt : k < 32) :
    (rotate c n).toNat = 2 ^ k * (c.toNat % 2 ^ (32 - k)) + c.toNat / 2 ^ (32 - k) := by
  have hpow : 2 ^ 32 = 2 ^ k * 2 ^ (32 - k) := by
    rw [← Nat.pow_add, Nat.add_sub_cancel' hlt.le]
  have hsub : (32 - n).toNat = 32 - k := by
    rw [← hn] at hlt ⊢
    exact UInt32.toNat_sub_of_le _ _ (UInt32.le_iff_toNat_le.mpr hlt.le)
  have hdown : c.toNat / 2 ^ (32 - k) < 2 ^ k := by
    rw [Nat.div_lt_iff_lt_mul (Nat.two_pow_pos _), ← hpow]
    exact c.toNat_lt
  rw [rotate, UInt32.toNat_or, UInt32.toNat_shiftLeft, UInt32.toNat_shiftRight, hsub, hn,
    Nat.mod_eq_of_lt hlt, Nat.mod_eq_of_lt (show 32 - k < 32 by omega), Nat.shiftLeft_eq,
    Nat.shiftRight_eq_div_pow, Nat.two_pow_add_eq_or_of_lt hdown, hpow, Nat.mul_comm,
    Nat.mul_mod_mul_left]

theorem rotate_column (b0 b1 b2 b3 : UInt8) :
    rotate (column b0 b1 b2 b3) 8 = column b3 b0 b1 b2 ∧
    rotate (column b0 b1 b2 b3) 16 = column b2 b3 b0 b1 ∧
    rotate (column b0 b1 b2 b3) 24 = column b1 b2 b3 b0 := by
  have h0 : b0.toNat < 2 ^ 8 := b0.toNat_lt
  have h1 : b1.toNat < 2 ^ 8 := b1.toNat_lt
  have h2 : b2.toNat < 2 ^ 8 := b2.toNat_lt
  refine ⟨?_, ?_, ?_⟩ <;> apply UInt32.toNat_inj.mp <;>
    rw [toNat_rotate _ rfl (by decide) (by decide), toNat_column, toNat_column] <;>
    simp only [UInt32.reduceToNat] <;> omega

theorem byteAt_eq (c : UInt32) (hi : i.toNat = k) (hk : k < 4) :
    byteAt c i = c.toNat / 2 ^ (8 * k) % 2 ^ 8 := by
  have hmul : (8 * i).toNat = 8 * k := by
    rw [UInt32.toNat_mul, hi]
    change 8 * k % 2 ^ 32 = 8 * k
    omega
  rw [byteAt, UInt32.toNat_and, UInt32.toNat_shiftRight, hmul,
    Nat.mod_eq_of_lt (show 8 * k < 32 by omega), Nat.shiftRight_eq_div_pow]
  exact Nat.and_two_pow_sub_one_eq_mod _ 8

theorem byteAt_xor (c d : UInt32) (hi : i.toNat < 4) :
    byteAt (c ^^^ d) i = byteAt c i ^^^ byteAt d i := by
  rw [byteAt_eq _ rfl hi, byteAt_eq _ rfl hi, byteAt_eq _ rfl hi, UInt32.toNat_xor,
    Nat.xor_div_two_pow, Nat.xor_mod_two_pow]

theorem byteAt_column (b0 b1 b2 b3 : UInt8) :
    byteAt (column b0 b1 b2 b3) 0 = b0.toNat ∧ byteAt (column b0 b1 b2 b3) 1 = b1.toNat ∧
    byteAt (column b0 b1 b2 b3) 2 = b2.toNat ∧ byteAt (column b0 b1 b2 b3) 3 = b3.toNat := by
  have h0 : b0.toNat < 2 ^ 8 := b0.toNat_lt
  have h1 : b1.toNat < 2 ^ 8 := b1.toNat_lt
  have h2 : b2.toNat < 2 ^ 8 := b2.toNat_lt
  have h3 : b3.toNat < 2 ^ 8 := b3.toNat_lt
  refine ⟨?_, ?_, ?_, ?_⟩ <;>
    rw [byteAt_eq _ rfl (by decide), toNat_column] <;> simp only [UInt32.reduceToNat] <;> omega

/-- A column is known from its bytes. -/
theorem eq_of_byteAt (h0 : byteAt c 0 = byteAt d 0) (h1 : byteAt c 1 = byteAt d 1)
    (h2 : byteAt c 2 = byteAt d 2) (h3 : byteAt c 3 = byteAt d 3) : c = d := by
  have hc : c.toNat < 2 ^ 32 := c.toNat_lt
  have hd : d.toNat < 2 ^ 32 := d.toNat_lt
  rw [byteAt_eq _ rfl (by decide), byteAt_eq _ rfl (by decide)] at h0 h1 h2 h3
  simp only [UInt32.reduceToNat] at h0 h1 h2 h3
  apply UInt32.toNat_inj.mp
  omega

/-- A row of a mixed column that is zero gives its byte as the double of a sum, if the bytes of
the column cancel. -/
theorem double_xor_of_row {a b c d : UInt8} (hall : a ^^^ b ^^^ c ^^^ d = 0)
    (hrow : double a ^^^ (double b ^^^ b) ^^^ c ^^^ d = 0) : double (a ^^^ b) = a := by
  apply UInt8.xor_eq_zero_iff.mp
  calc double (a ^^^ b) ^^^ a
      = (double a ^^^ (double b ^^^ b) ^^^ c ^^^ d) ^^^ (a ^^^ b ^^^ c ^^^ d) := by
        rw [additive_double]
        simp [UInt8.xor_assoc, UInt8.xor_comm, xor_left_comm]
    _ = 0 := by rw [hrow, hall, UInt8.xor_self]

/-- A column whose mixing is zero is zero. -/
theorem eq_zero_of_mixed {e0 e1 e2 e3 : UInt8}
    (h0 : double e0 ^^^ (double e1 ^^^ e1) ^^^ e2 ^^^ e3 = 0)
    (h1 : e0 ^^^ double e1 ^^^ (double e2 ^^^ e2) ^^^ e3 = 0)
    (h2 : e0 ^^^ e1 ^^^ double e2 ^^^ (double e3 ^^^ e3) = 0)
    (h3 : (double e0 ^^^ e0) ^^^ e1 ^^^ e2 ^^^ double e3 = 0) :
    e0 = 0 ∧ e1 = 0 ∧ e2 = 0 ∧ e3 = 0 := by
  -- all rows together leave the exclusive or of the four bytes
  have hall : e0 ^^^ e1 ^^^ e2 ^^^ e3 = 0 := by
    have hrows : (double e0 ^^^ (double e1 ^^^ e1) ^^^ e2 ^^^ e3) ^^^
        (e0 ^^^ double e1 ^^^ (double e2 ^^^ e2) ^^^ e3) ^^^
        (e0 ^^^ e1 ^^^ double e2 ^^^ (double e3 ^^^ e3)) ^^^
        ((double e0 ^^^ e0) ^^^ e1 ^^^ e2 ^^^ double e3) = e0 ^^^ e1 ^^^ e2 ^^^ e3 := by
      simp [UInt8.xor_assoc, UInt8.xor_comm, xor_left_comm]
    rw [← hrows, h0, h1, h2, h3]
    rfl
  -- with that, each row gives a byte as the double of a sum of two
  have hd0 : double (e0 ^^^ e1) = e0 := double_xor_of_row hall h0
  have hd1 : double (e1 ^^^ e2) = e1 :=
    double_xor_of_row (c := e3) (d := e0) (by rw [← hall]; ac_rfl) (by rw [← h1]; ac_rfl)
  have hd2 : double (e2 ^^^ e3) = e2 :=
    double_xor_of_row (c := e0) (d := e1) (by rw [← hall]; ac_rfl) (by rw [← h2]; ac_rfl)
  have hd3 : double (e3 ^^^ e0) = e3 :=
    double_xor_of_row (c := e1) (d := e2) (by rw [← hall]; ac_rfl) (by rw [← h3]; ac_rfl)
  -- so bytes two rows apart are equal, and then all four
  have hzero := additive_double.map_zero
  obtain rfl : e0 = e2 := by
    apply UInt8.xor_eq_zero_iff.mp
    calc e0 ^^^ e2 = double (e0 ^^^ e1) ^^^ double (e2 ^^^ e3) := by rw [hd0, hd2]
      _ = 0 := by rw [← additive_double, ← UInt8.xor_assoc, hall, hzero]
  obtain rfl : e1 = e3 := by
    apply UInt8.xor_eq_zero_iff.mp
    calc e1 ^^^ e3 = double (e1 ^^^ e0) ^^^ double (e3 ^^^ e0) := by rw [hd1, hd3]
      _ = double (e0 ^^^ e1 ^^^ e0 ^^^ e3) := by
        rw [← additive_double]
        simp [UInt8.xor_comm, xor_left_comm]
      _ = 0 := by rw [hall, hzero]
  obtain rfl : e0 = e1 := hd0.symm.trans ((congrArg double (UInt8.xor_comm e0 e1)).trans hd1)
  rw [UInt8.xor_self, hzero] at hd0
  exact ⟨hd0.symm, hd0.symm, hd0.symm, hd0.symm⟩

theorem column_xor (a0 a1 a2 a3 b0 b1 b2 b3 : UInt8) :
    column a0 a1 a2 a3 ^^^ column b0 b1 b2 b3 =
      column (a0 ^^^ b0) (a1 ^^^ b1) (a2 ^^^ b2) (a3 ^^^ b3) := by
  obtain ⟨ha0, ha1, ha2, ha3⟩ := byteAt_column a0 a1 a2 a3
  obtain ⟨hb0, hb1, hb2, hb3⟩ := byteAt_column b0 b1 b2 b3
  obtain ⟨hc0, hc1, hc2, hc3⟩ := byteAt_column (a0 ^^^ b0) (a1 ^^^ b1) (a2 ^^^ b2) (a3 ^^^ b3)
  apply eq_of_byteAt
  · rw [byteAt_xor _ _ (by decide), ha0, hb0, hc0, UInt8.toNat_xor]
  · rw [byteAt_xor _ _ (by decide), ha1, hb1, hc1, UInt8.toNat_xor]
  · rw [byteAt_xor _ _ (by decide), ha2, hb2, hc2, UInt8.toNat_xor]
  · rw [byteAt_xor _ _ (by decide), ha3, hb3, hc3, UInt8.toNat_xor]

theorem column_inj {a0 a1 a2 a3 b0 b1 b2 b3 : UInt8}
    (h : column a0 a1 a2 a3 = column b0 b1 b2 b3) : a0 = b0 ∧ a1 = b1 ∧ a2 = b2 ∧ a3 = b3 := by
  obtain ⟨ha0, ha1, ha2, ha3⟩ := byteAt_column a0 a1 a2 a3
  obtain ⟨hb0, hb1, hb2, hb3⟩ := byteAt_column b0 b1 b2 b3
  rw [h] at ha0 ha1 ha2 ha3
  exact ⟨UInt8.toNat_inj.mp (ha0.symm.trans hb0), UInt8.toNat_inj.mp (ha1.symm.trans hb1),
    UInt8.toNat_inj.mp (ha2.symm.trans hb2), UInt8.toNat_inj.mp (ha3.symm.trans hb3)⟩

/-- Four substituted bytes mixed, row by row. -/
theorem mixed_rows (s0 s1 s2 s3 : UInt8) :
    mixed s0 ^^^ rotate (mixed s1) 8 ^^^ rotate (mixed s2) 16 ^^^ rotate (mixed s3) 24 =
      column (double s0 ^^^ (double s1 ^^^ s1) ^^^ s2 ^^^ s3)
        (s0 ^^^ double s1 ^^^ (double s2 ^^^ s2) ^^^ s3)
        (s0 ^^^ s1 ^^^ double s2 ^^^ (double s3 ^^^ s3))
        ((double s0 ^^^ s0) ^^^ s1 ^^^ s2 ^^^ double s3) := by
  rw [mixed, mixed, mixed, mixed, (rotate_column ..).1, (rotate_column ..).2.1,
    (rotate_column ..).2.2, column_xor, column_xor, column_xor]

/-- **Mixing can be undone.** -/
theorem mixed_inj {s0 s1 s2 s3 t0 t1 t2 t3 : UInt8}
    (h : mixed s0 ^^^ rotate (mixed s1) 8 ^^^ rotate (mixed s2) 16 ^^^ rotate (mixed s3) 24 =
      mixed t0 ^^^ rotate (mixed t1) 8 ^^^ rotate (mixed t2) 16 ^^^ rotate (mixed t3) 24) :
    s0 = t0 ∧ s1 = t1 ∧ s2 = t2 ∧ s3 = t3 := by
  rw [mixed_rows, mixed_rows] at h
  obtain ⟨h0, h1, h2, h3⟩ := column_inj h
  have hzero : (s0 ^^^ t0 = 0) ∧ (s1 ^^^ t1 = 0) ∧ (s2 ^^^ t2 = 0) ∧ (s3 ^^^ t3 = 0) := by
    rw [← UInt8.xor_eq_zero_iff] at h0 h1 h2 h3
    apply eq_zero_of_mixed
    · rw [← h0, additive_double, additive_double]
      ac_rfl
    · rw [← h1, additive_double, additive_double]
      ac_rfl
    · rw [← h2, additive_double, additive_double]
      ac_rfl
    · rw [← h3, additive_double, additive_double]
      ac_rfl
  simpa only [UInt8.xor_eq_zero_iff] using hzero

/-- The substitution of byte `i` of a column. -/
def subAt (c i : UInt32) : UInt8 :=
  substitute (UInt8.ofNat (byteAt c i))

theorem byteAt_lt (c : UInt32) (hi : i.toNat < 4) : byteAt c i < 256 := by
  rw [byteAt_eq c rfl hi]
  exact Nat.mod_lt _ (by decide)

/-- The table of the substitution. -/
theorem sub_byteAt (c : UInt32) (hi : i.toNat < 4) : sub (byteAt c i) = (subAt c i).toUInt32 := by
  simp [sub, substitution, Array.getD, byteAt_lt c hi, subAt]

/-- The table of the mixed columns. -/
theorem mixing_byteAt (c : UInt32) (hi : i.toNat < 4) :
    mixing.getD (byteAt c i) 0 = mixed (subAt c i) := by
  simp [mixing, substitution, Array.getD, byteAt_lt c hi, mixed, column, subAt]

theorem byteAt_of_subAt (hi : i.toNat < 4) (h : subAt c i = subAt d i) :
    byteAt c i = byteAt d i := by
  have hbyte := congrArg UInt8.toNat (substitute_injective h)
  rwa [UInt8.toNat_ofNat', UInt8.toNat_ofNat', Nat.mod_eq_of_lt (byteAt_lt c hi),
    Nat.mod_eq_of_lt (byteAt_lt d hi)] at hbyte

/-- The bytes that the rows of a new column are shifted in from are the same. -/
def SameShifted (a b c d a' b' c' d' : UInt32) : Prop :=
  byteAt a 0 = byteAt a' 0 ∧ byteAt b 1 = byteAt b' 1 ∧ byteAt c 2 = byteAt c' 2 ∧
    byteAt d 3 = byteAt d' 3

theorem sameShifted_of_subAt
    (h : subAt a 0 = subAt a' 0 ∧ subAt b 1 = subAt b' 1 ∧ subAt c 2 = subAt c' 2 ∧
      subAt d 3 = subAt d' 3) : SameShifted a b c d a' b' c' d' :=
  ⟨byteAt_of_subAt (by decide) h.1, byteAt_of_subAt (by decide) h.2.1,
    byteAt_of_subAt (by decide) h.2.2.1, byteAt_of_subAt (by decide) h.2.2.2⟩

theorem sameShifted_of_mixColumn (h : mixColumn a b c d key = mixColumn a' b' c' d' key) :
    SameShifted a b c d a' b' c' d' := by
  simp (disch := decide) only [mixColumn, mixing_byteAt, UInt32.xor_left_inj] at h
  exact sameShifted_of_subAt (mixed_inj h)

theorem sameShifted_of_lastColumn (h : lastColumn a b c d key = lastColumn a' b' c' d' key) :
    SameShifted a b c d a' b' c' d' := by
  simp (disch := decide) only [lastColumn, sub_byteAt, UInt32.xor_left_inj] at h
  exact sameShifted_of_subAt (column_inj h)

theorem State.eq_of_columns (h0 : s.c0 = t.c0) (h1 : s.c1 = t.c1) (h2 : s.c2 = t.c2)
    (h3 : s.c3 = t.c3) : s = t := by
  cases s
  cases t
  exact (State.mk.injEq ..).mpr ⟨h0, h1, h2, h3⟩

/-- A state is known from the bytes that its rows are shifted to. -/
theorem State.eq_of_sameShifted (h0 : SameShifted s.c0 s.c1 s.c2 s.c3 t.c0 t.c1 t.c2 t.c3)
    (h1 : SameShifted s.c1 s.c2 s.c3 s.c0 t.c1 t.c2 t.c3 t.c0)
    (h2 : SameShifted s.c2 s.c3 s.c0 s.c1 t.c2 t.c3 t.c0 t.c1)
    (h3 : SameShifted s.c3 s.c0 s.c1 s.c2 t.c3 t.c0 t.c1 t.c2) : s = t := by
  obtain ⟨h00, h11, h22, h33⟩ := h0
  obtain ⟨h10, h21, h32, h03⟩ := h1
  obtain ⟨h20, h31, h02, h13⟩ := h2
  obtain ⟨h30, h01, h12, h23⟩ := h3
  exact State.eq_of_columns (eq_of_byteAt h00 h01 h02 h03) (eq_of_byteAt h10 h11 h12 h13)
    (eq_of_byteAt h20 h21 h22 h23) (eq_of_byteAt h30 h31 h32 h33)

theorem round_injective (key : State) : Function.Injective (round · key) := by
  intro s t h
  obtain ⟨h0, h1, h2, h3⟩ := State.mk.inj h
  exact State.eq_of_sameShifted (sameShifted_of_mixColumn h0) (sameShifted_of_mixColumn h1)
    (sameShifted_of_mixColumn h2) (sameShifted_of_mixColumn h3)

theorem lastRound_injective (key : State) : Function.Injective (lastRound · key) := by
  intro s t h
  obtain ⟨h0, h1, h2, h3⟩ := State.mk.inj h
  exact State.eq_of_sameShifted (sameShifted_of_lastColumn h0) (sameShifted_of_lastColumn h1)
    (sameShifted_of_lastColumn h2) (sameShifted_of_lastColumn h3)

theorem foldl_round_injective (keys : List State) : Function.Injective (keys.foldl round) := by
  induction keys with
  | nil => exact fun _ _ h => h
  | cons key keys ih => exact fun _ _ h => round_injective key (ih h)

theorem State.ofBlock_injective : Function.Injective State.ofBlock := by
  intro a b h
  obtain ⟨h0, h1, h2, h3⟩ := State.mk.inj h
  have hlo : a.lo = b.lo :=
    UInt64.toNat_inj.mp (by rw [toNat_halves a.lo, toNat_halves b.lo, h0, h1])
  have hhi : a.hi = b.hi :=
    UInt64.toNat_inj.mp (by rw [toNat_halves a.hi, toNat_halves b.hi, h2, h3])
  cases a
  cases b
  exact congrArg₂ Block.mk hlo hhi

theorem State.toBlock_injective : Function.Injective State.toBlock := by
  intro s t h
  obtain ⟨hlo, hhi⟩ := Block.mk.inj h
  have hjoin : ∀ {a b c d : UInt32}, a.toUInt64 ||| (b.toUInt64 <<< 32) =
      c.toUInt64 ||| (d.toUInt64 <<< 32) → a = c ∧ b = d := by
    intro a b c d hword
    have ha : a.toNat < 2 ^ 32 := a.toNat_lt
    have hc : c.toNat < 2 ^ 32 := c.toNat_lt
    have hnumber := congrArg UInt64.toNat hword
    rw [toNat_join, toNat_join] at hnumber
    exact ⟨UInt32.toNat_inj.mp (by omega), UInt32.toNat_inj.mp (by omega)⟩
  obtain ⟨h0, h1⟩ := hjoin hlo
  obtain ⟨h2, h3⟩ := hjoin hhi
  exact State.eq_of_columns h0 h1 h2 h3

/-- **Under one key schedule, different blocks have different encryptions.** -/
theorem encrypt_injective (keys : Schedule) : Function.Injective (encrypt keys) := by
  intro a b h
  have hstart := foldl_round_injective keys.rounds
    (lastRound_injective keys.last (State.toBlock_injective h))
  obtain ⟨h0, h1, h2, h3⟩ := State.mk.inj hstart
  rw [UInt32.xor_left_inj] at h0 h1 h2 h3
  exact State.ofBlock_injective (State.eq_of_columns h0 h1 h2 h3)

end Beaver.Aes
