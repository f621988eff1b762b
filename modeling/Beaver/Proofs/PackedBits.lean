import Beaver.BitString
import Beaver.Proofs.BlockBits

/-!
# Packed bits, bit by bit

The bits of a well-formed string are the bits of its bytes.  Seen in this way, joining
two strings puts the bits of the second behind those of the first (`bit_append`), and
cutting a string into blocks gives each block 128 consecutive bits (`bit_blocks`).
-/

namespace Beaver

open List

namespace Bytes

theorem bit_append (as bs : Bytes) (i : Nat) :
    Bytes.bit (as ++ bs) i = if i < 8 * as.length then as.bit i else bs.bit (i - 8 * as.length) := by
  by_cases hi : i < 8 * as.length
  · rw [if_pos hi, bit, bit, getElem?_append_left (by omega)]
  · have hdiv : (i - 8 * as.length) / 8 = i / 8 - as.length := by omega
    have hmod : (i - 8 * as.length) % 8 = i % 8 := by omega
    rw [if_neg hi, bit, bit, getElem?_append_right (by omega), hdiv, hmod]

@[simp]
theorem bit_nil (i : Nat) : Bytes.bit [] i = false := bit_of_length_le (Nat.zero_le i)

@[simp]
theorem bit_replicate_zero (n i : Nat) : Bytes.bit (replicate n 0) i = false := by
  rw [bit, getElem?_replicate]
  split <;> simp

theorem bit_cons_of_lt (b : UInt8) (bs : Bytes) {i : Nat} (hi : i < 8) :
    Bytes.bit (b :: bs) i = b.toNat.testBit i := by
  simp [bit, Nat.div_eq_of_lt hi, Nat.mod_eq_of_lt hi]

theorem bit_cons_add (b : UInt8) (bs : Bytes) (i : Nat) : Bytes.bit (b :: bs) (8 + i) = bs.bit i := by
  have hdiv : (8 + i) / 8 = i / 8 + 1 := by omega
  have hmod : (8 + i) % 8 = i % 8 := by omega
  rw [bit, bit, hdiv, hmod, getElem?_cons_succ]

/-- A bit of the first byte or of a later one. -/
theorem byte_cases (i : Nat) : i < 8 ∨ ∃ k, i = 8 + k := by
  by_cases hi : i < 8
  · exact .inl hi
  · exact .inr ⟨i - 8, by omega⟩

end Bytes

namespace BitString

/-- As many bytes as the bits need, and nothing past the last bit. -/
structure WellFormed (v : BitString) : Prop where
  length_bytes : v.bytes.length = bytesFor v.length
  clear : ∀ i, v.length ≤ i → v.bytes.bit i = false

theorem testBit_byteOf (bs : List Bool) {j : Nat} (hj : j < 8) :
    (byteOf bs).toNat.testBit j = (bs[j]?).getD false := by
  have hfold : ∀ (bs : List Bool) (j : Nat),
      (bs.foldr (fun (b : Bool) n => b.toNat + 2 * n) 0).testBit j = (bs[j]?).getD false := by
    intro bs
    induction bs with
    | nil => intro j; simp
    | cons b bs ih =>
      intro j
      have hb : b.toNat < 2 ^ 1 := by cases b <;> decide
      rw [foldr_cons, Nat.add_comm, show 2 = 2 ^ 1 from rfl,
        Nat.testBit_two_pow_mul_add _ hb]
      cases j with
      | zero => cases b <;> rfl
      | succ j => simpa using ih j
  rw [byteOf, UInt8.toNat_ofNat', Nat.testBit_mod_two_pow, hfold]
  simp [hj]

variable {bs : List Bool} {v : BitString}

/-- A list that does not start with eight bits is short. -/
theorem length_lt_eight
    (h : ∀ b0 b1 b2 b3 b4 b5 b6 b7 rest, bs = b0 :: b1 :: b2 :: b3 :: b4 :: b5 :: b6 :: b7 :: rest → False) :
    bs.length < 8 := by
  rcases bs with _ | ⟨b0, _ | ⟨b1, _ | ⟨b2, _ | ⟨b3, _ | ⟨b4, _ | ⟨b5, _ | ⟨b6, _ | ⟨b7, rest⟩⟩⟩⟩⟩⟩⟩⟩
  case cons.cons.cons.cons.cons.cons.cons.cons => exact (h b0 b1 b2 b3 b4 b5 b6 b7 rest rfl).elim
  all_goals simp

theorem bit_pack (bs : List Bool) (i : Nat) : Bytes.bit (pack bs) i = (bs[i]?).getD false := by
  fun_induction pack bs generalizing i with
  | case1 b0 b1 b2 b3 b4 b5 b6 b7 rest ih =>
    rcases Bytes.byte_cases i with hi | ⟨k, rfl⟩
    · rw [Bytes.bit_cons_of_lt _ _ hi, testBit_byteOf _ hi]
      have hfront : (b0 :: b1 :: b2 :: b3 :: b4 :: b5 :: b6 :: b7 :: rest)
          = [b0, b1, b2, b3, b4, b5, b6, b7] ++ rest := rfl
      rw [hfront, getElem?_append_left (by simpa using hi)]
    · rw [Bytes.bit_cons_add, ih, Nat.add_comm]
      rfl
  | case2 => rw [Bytes.bit_of_length_le (by simp)]; simp
  | case3 bs hlong hne =>
    have hlength := length_lt_eight hlong
    rcases Bytes.byte_cases i with hi | ⟨k, rfl⟩
    · rw [Bytes.bit_cons_of_lt _ _ hi, testBit_byteOf bs hi]
    · rw [Bytes.bit_cons_add, getElem?_eq_none (by omega)]
      rfl

theorem bit_orBytes (as bs : Bytes) (i : Nat) :
    Bytes.bit (orBytes as bs) i = (as.bit i || bs.bit i) := by
  fun_induction orBytes as bs generalizing i with
  | case1 bs => rw [Bytes.bit_nil, Bool.false_or]
  | case2 as has => rw [Bytes.bit_nil, Bool.or_false]
  | case3 a as b bs ih =>
    rcases Bytes.byte_cases i with hi | ⟨k, rfl⟩
    · rw [Bytes.bit_cons_of_lt _ _ hi, Bytes.bit_cons_of_lt _ _ hi, Bytes.bit_cons_of_lt _ _ hi,
        UInt8.toNat_or, Nat.testBit_or]
    · rw [Bytes.bit_cons_add, Bytes.bit_cons_add, Bytes.bit_cons_add, ih]

theorem length_orBytes (as bs : Bytes) : (orBytes as bs).length = max as.length bs.length := by
  fun_induction orBytes as bs with
  | case1 bs => simp
  | case2 as has => simp
  | case3 a as b bs ih => simp [ih]

theorem length_pack (bs : List Bool) : (pack bs).length = bytesFor bs.length := by
  fun_induction pack bs with
  | case1 b0 b1 b2 b3 b4 b5 b6 b7 rest ih => simp [ih, bytesFor]; omega
  | case2 => rfl
  | case3 bs hlong hne =>
    have hlength := length_lt_eight hlong
    have hpos := length_pos_iff.mpr hne
    rw [length_singleton, bytesFor]
    omega

theorem length_clearPadding (v : BitString) :
    v.clearPadding.length = v.length ∧ v.clearPadding.bytes.length = v.bytes.length := by
  rw [clearPadding]
  split
  · exact ⟨rfl, rfl⟩
  · exact ⟨rfl, rfl⟩
  · next last hlast _ =>
      refine ⟨rfl, ?_⟩
      have hpos : 0 < v.bytes.length := by
        apply length_pos_iff.mpr
        rintro hnil
        rw [hnil] at hlast
        cases hlast
      simp
      omega

/-- Clearing the padding keeps the bits and nothing else. -/
theorem bit_clearPadding (hv : v.bytes.length = bytesFor v.length) (i : Nat) :
    v.clearPadding.bytes.bit i = (decide (i < v.length) && v.bytes.bit i) := by
  rw [bytesFor] at hv
  rw [clearPadding]
  split
  · next hzero =>
      by_cases hi : i < v.length
      · simp [hi]
      · simp [hi, Bytes.bit_of_length_le (show 8 * v.bytes.length ≤ i by omega)]
  · next hnone _ =>
      rw [getLast?_eq_none_iff.mp hnone]
      simp
  · next last hlast hne =>
      obtain ⟨front, hfront⟩ := getLast?_eq_some_iff.mp hlast
      have hrest : v.length % 8 ≠ 0 := hne
      rw [hfront, length_append, length_singleton] at hv
      have hdrop : v.bytes.dropLast = front := by rw [hfront, dropLast_concat]
      rw [hdrop, Bytes.bit_append, hfront, Bytes.bit_append]
      by_cases hi : i < 8 * front.length
      · simp [hi, show i < v.length by omega]
      · rw [if_neg hi, if_neg hi]
        rcases Bytes.byte_cases (i - 8 * front.length) with hbyte | ⟨l, hl⟩
        · have hmask : (UInt8.ofNat (2 ^ (v.length % 8) - 1)).toNat = 2 ^ (v.length % 8) - 1 := by
            have hpow : 2 ^ (v.length % 8) < 2 ^ 8 := Nat.pow_lt_pow_right (by omega) (by omega)
            rw [UInt8.toNat_ofNat']
            omega
          rw [Bytes.bit_cons_of_lt _ _ hbyte, Bytes.bit_cons_of_lt _ _ hbyte, UInt8.toNat_and,
            Nat.testBit_and, Nat.pow_eq, hmask, Nat.testBit_two_pow_sub_one, Bool.and_comm]
          congr 1
          rw [decide_eq_decide]
          omega
        · rw [hl, Bytes.bit_cons_add, Bytes.bit_cons_add]
          simp

theorem wellFormed_clearPadding (hv : v.bytes.length = bytesFor v.length) :
    v.clearPadding.WellFormed where
  length_bytes := by rw [(length_clearPadding v).2, (length_clearPadding v).1, hv]
  clear i hi := by
    rw [(length_clearPadding v).1] at hi
    rw [bit_clearPadding hv]
    simp [Nat.not_lt_of_le hi]

theorem flatMap_byteBits (bs : Bytes) :
    bs.flatMap byteBits = (range (8 * bs.length)).map bs.bit := by
  induction bs with
  | nil => rfl
  | cons b bs ih =>
    have hlength : 8 * (bs.length + 1) = 8 + 8 * bs.length := by omega
    rw [flatMap_cons, ih, length_cons, hlength, range_add, map_append,
      map_map]
    have hfirst : byteBits b = (range 8).map (Bytes.bit (b :: bs)) := by
      apply map_congr_left
      intro i hi
      rw [Bytes.bit_cons_of_lt _ _ (mem_range.mp hi)]
    rw [hfirst]
    congr 1
    apply map_congr_left
    intro i _
    exact (Bytes.bit_cons_add b bs i).symm

theorem wellFormed_ofBits (bs : List Bool) : (ofBits bs).WellFormed where
  length_bytes := length_pack bs
  clear i hi := by
    have hnone : bs[i]? = none := getElem?_eq_none hi
    rw [ofBits, bit_pack, hnone]
    rfl

/-- The bits of a string that has all its bytes. -/
theorem bits_eq_map (hv : bytesFor v.length ≤ v.bytes.length) :
    v.bits = (range v.length).map v.bytes.bit := by
  rw [bytesFor] at hv
  rw [bits, flatMap_byteBits, ← map_take, take_range, Nat.min_eq_left (by omega)]

/-- A bit of any string, looked up in the list of its bits; one that is not there is
clear. -/
theorem getD_bits (v : BitString) (i : Nat) :
    (v.bits[i]?).getD false = (decide (i < v.length) && v.bytes.bit i) := by
  rw [bits, flatMap_byteBits, getElem?_take]
  by_cases hi : i < v.length
  · rw [if_pos hi, decide_eq_true hi, Bool.true_and, getElem?_map]
    by_cases hbyte : i < 8 * v.bytes.length
    · rw [getElem?_range hbyte]
      rfl
    · rw [getElem?_eq_none (by simpa using hbyte), Bytes.bit_of_length_le (by omega)]
      rfl
  · rw [if_neg hi, decide_eq_false hi]
    rfl

theorem getElem?_bits (hv : v.WellFormed) (i : Nat) : (v.bits[i]?).getD false = v.bytes.bit i := by
  rw [getD_bits]
  by_cases hi : i < v.length
  · rw [decide_eq_true hi, Bool.true_and]
  · rw [hv.clear i (by omega), Bool.and_false]

theorem bits?_isSome (hv : bytesFor v.length ≤ v.bytes.length) : v.bits?.isSome = true := by
  rw [bits?, if_pos hv]
  rfl

/-- Making a string longer keeps its bits. -/
theorem bit_resize (hv : v.WellFormed) {n : Nat} (hn : v.length ≤ n) :
    (v.resize n).bytes.length = bytesFor n ∧ ∀ i, (v.resize n).bytes.bit i = v.bytes.bit i := by
  have hbytes : v.bytes.length ≤ bytesFor n := by
    rw [hv.length_bytes, bytesFor, bytesFor]
    omega
  have hlength : (v.bytes.take (bytesFor n) ++ replicate (bytesFor n - v.bytes.length) 0).length
      = bytesFor n := by
    simp
    omega
  refine ⟨(length_clearPadding _).2.trans hlength, fun i => ?_⟩
  rw [resize, bit_clearPadding hlength, take_of_length_le hbytes, Bytes.bit_append,
    Bytes.bit_replicate_zero]
  by_cases hi : i < v.length
  · have hin : i < 8 * v.bytes.length := by
      rw [hv.length_bytes, bytesFor]
      omega
    simp [hin, show i < n by omega]
  · rw [hv.clear i (by omega)]
    simp

/-- Setting bits from a position on. -/
theorem bit_orFrom {offset : Nat} (hv : v.bytes.length = bytesFor (offset + bs.length)) :
    (v.orFrom offset bs).bytes.length = v.bytes.length ∧ ∀ i, (v.orFrom offset bs).bytes.bit i
      = (v.bytes.bit i || (decide (offset ≤ i) && (bs[i - offset]?).getD false)) := by
  rw [bytesFor] at hv
  have hfront : (v.bytes.take (offset / 8)).length = offset / 8 := by
    rw [length_take]
    omega
  constructor
  · rw [orFrom, length_append, hfront, length_orBytes, length_pack, length_drop,
      length_append, length_replicate, bytesFor]
    omega
  · intro i
    rw [orFrom, Bytes.bit_append, hfront, bit_orBytes, Bytes.bit_drop, bit_pack]
    by_cases hi : i < 8 * (offset / 8)
    · rw [if_pos hi, Bytes.bit_take hi]
      simp [show ¬ offset ≤ i by omega]
    · rw [if_neg hi, show 8 * (offset / 8) + (i - 8 * (offset / 8)) = i by omega]
      congr 1
      by_cases hle : offset ≤ i
      · rw [getElem?_append_right (by rw [length_replicate]; omega), length_replicate,
          show i - 8 * (offset / 8) - offset % 8 = i - offset by omega]
        simp [hle]
      · rw [getElem?_append_left (by rw [length_replicate]; omega), getElem?_replicate,
          if_pos (by omega)]
        simp [hle]

/-- **Joining strings** puts the bits of the second behind those of the first. -/
theorem append_eq {w : BitString} (hv : v.WellFormed) (hw : w.WellFormed)
    (hlength : v.length + w.length < 2 ^ 64) :
    ∃ joined, v.append w = (joined, none) ∧ joined.length = v.length + w.length ∧
      joined.bytes.length = bytesFor (v.length + w.length) ∧
      ∀ i, joined.bytes.bit i
        = if i < v.length then v.bytes.bit i else w.bytes.bit (i - v.length) := by
  have hbits : w.bits.length = w.length := by
    rw [bits_eq_map (Nat.le_of_eq hw.length_bytes.symm), length_map, length_range]
  obtain ⟨hresize, hkeep⟩ := bit_resize hv (Nat.le_add_right v.length w.length)
  have hroom : (v.resize (v.length + w.length)).bytes.length = bytesFor (v.length + w.bits.length) := by
    rw [hresize, hbits]
  obtain ⟨hjoined, hset⟩ := bit_orFrom hroom
  refine ⟨_, ?_, ?_, hjoined.trans hresize, fun i => ?_⟩
  · rw [append, Nat.pow_eq, if_pos hlength, bits?_isSome (Nat.le_of_eq hw.length_bytes.symm)]
    rfl
  · exact (length_clearPadding _).1
  · rw [hset i, hkeep i, getElem?_bits hw]
    by_cases hi : i < v.length
    · simp [hi, Nat.not_le_of_lt hi]
    · simp [hi, Nat.le_of_not_lt hi, hv.clear i (Nat.le_of_not_lt hi)]

/-- **Blocks of a string** have 128 consecutive bits each. -/
theorem bit_blocks (n : Nat) (bs : Bytes) {s : Nat} (hs : s < n) {j : Nat} (hj : j < 128) :
    ((blocks n bs)[s]?.getD .zero).bit j = bs.bit (128 * s + j) := by
  induction n generalizing bs s with
  | zero => omega
  | succ n ih =>
    rw [blocks]
    cases s with
    | zero => simpa using Block.bit_ofBytes bs hj
    | succ s =>
      rw [getElem?_cons_succ, ih (bs.drop 16) (by omega), Bytes.bit_drop]
      congr 1
      omega

@[simp]
theorem length_blocks (n : Nat) (bs : Bytes) : (blocks n bs).length = n := by
  induction n generalizing bs with
  | zero => rfl
  | succ n ih => simp [blocks, ih]

end BitString

end Beaver
