import Mathlib
import Beaver.Proofs.PackedBits

/-!
# Strings of bits as lists of bits

A string holds a list of bits if it has just the bytes they need and every later place is
clear (`BitString.Holds`).  A list is held by one string only, and each operation does to the
string what the operation of the same name does to the list.  Strings that are built by the
operations alone are therefore as good as the lists of their bits (`BitString.built_acts_as_list`).

Blocks and words are the one exception: the place where they start and end has to be a machine
word, also where the string has long ended.
-/

namespace Beaver

open List

namespace Bytes

variable {as bs : Bytes}

/-- **Byte strings of one length with the same bits are equal.** -/
theorem ext_bit (hlength : as.length = bs.length) (h : ∀ i, as.bit i = bs.bit i) : as = bs := by
  have hnat : toNatLE as = toNatLE bs := by
    apply Nat.eq_of_testBit_eq
    intro i
    rw [testBit_toNatLE, testBit_toNatLE, h i]
  rw [← ofNatLE_toNatLE as, ← ofNatLE_toNatLE bs, hnat, hlength]

theorem bit_xor (hlength : as.length = bs.length) (i : Nat) :
    Bytes.bit (as.xor bs) i = (as.bit i ^^ bs.bit i) := by
  rw [bit, bit, bit, Bytes.xor, getElem?_zipWith]
  by_cases hi : i / 8 < as.length
  · rw [getElem?_eq_getElem hi, getElem?_eq_getElem (hlength ▸ hi)]
    simp
  · rw [getElem?_eq_none (by omega), getElem?_eq_none (by omega)]
    rfl

end Bytes

namespace BitString

/-- Just the bytes that the bits need, and nothing past the last of them. -/
structure Holds (v : BitString) (bs : List Bool) : Prop where
  length_eq : v.length = bs.length
  length_bytes : v.bytes.length = bytesFor bs.length
  bit_eq : ∀ i, v.bytes.bit i = (bs[i]?).getD false

section Views

variable {v w : BitString} {bs cs : List Bool}

theorem Holds.wellFormed (h : v.Holds bs) : v.WellFormed where
  length_bytes := by rw [h.length_bytes, h.length_eq]
  clear i hi := by
    rw [h.length_eq] at hi
    rw [h.bit_eq, getElem?_eq_none hi]
    rfl

theorem WellFormed.length_bits (h : v.WellFormed) : v.bits.length = v.length := by
  rw [bits_eq_map (Nat.le_of_eq h.length_bytes.symm), length_map, length_range]

theorem WellFormed.holds (h : v.WellFormed) : v.Holds v.bits where
  length_eq := h.length_bits.symm
  length_bytes := by rw [h.length_bits, h.length_bytes]
  bit_eq i := (getElem?_bits h i).symm

theorem Holds.bits_eq (h : v.Holds bs) : v.bits = bs := by
  have hlength : v.bits.length = bs.length := h.wellFormed.length_bits.trans h.length_eq
  apply ext_getElem hlength
  intro i hi hi'
  have hbit := (getElem?_bits h.wellFormed i).trans (h.bit_eq i)
  rwa [getElem?_eq_getElem hi, getElem?_eq_getElem hi', Option.getD_some,
    Option.getD_some] at hbit

/-- **A list of bits is held by one string only.** -/
theorem Holds.unique (h : v.Holds bs) (h' : w.Holds bs) : v = w := by
  have hbytes : v.bytes = w.bytes := by
    apply Bytes.ext_bit
    · rw [h.length_bytes, h'.length_bytes]
    · intro i
      rw [h.bit_eq, h'.bit_eq]
  have hlength : v.length = w.length := by rw [h.length_eq, h'.length_eq]
  cases v
  cases w
  cases hbytes
  cases hlength
  rfl

end Views

/-! ## Each operation on the list -/

theorem holds_ofBits (bs : List Bool) : (ofBits bs).Holds bs where
  length_eq := rfl
  length_bytes := length_pack bs
  bit_eq := bit_pack bs

theorem holds_zeros (n : Nat) : (zeros n).Holds (replicate n false) where
  length_eq := length_replicate.symm
  length_bytes := by rw [zeros, length_replicate, length_replicate]
  bit_eq i := by
    rw [zeros, Bytes.bit_replicate_zero, getElem?_replicate]
    split <;> rfl

variable {bytes : Bytes} {n : Nat} {v : BitString}

/-- With the padding cleared, as many bytes as `n` bits need hold their first `n` bits. -/
theorem holds_clearPadding (h : bytes.length = bytesFor n) :
    (clearPadding ⟨bytes, n⟩).Holds ((range n).map bytes.bit) where
  length_eq := by rw [(length_clearPadding _).1, length_map, length_range]
  length_bytes := by rw [(length_clearPadding _).2, length_map, length_range, h]
  bit_eq i := by
    rw [bit_clearPadding h, getElem?_map]
    by_cases hi : i < n
    · rw [getElem?_range hi]
      simp [hi]
    · rw [getElem?_eq_none (by simpa using hi)]
      simp [hi]

theorem ofBytes_eq (h : bytes.length = bytesFor n) :
    ofBytes bytes n = .ok (clearPadding ⟨bytes, n⟩) := by
  rw [ofBytes, checkLength, if_pos h.symm]
  rfl

theorem length_of_ofBytes (h : ofBytes bytes n = .ok v) : bytes.length = bytesFor n := by
  by_contra hne
  rw [ofBytes, checkLength, if_neg fun heq => hne heq.symm] at h
  cases h

theorem testBit_setBit (x : UInt8) {i j : Nat} (hi : i < 8) (hj : j < 8) (b : Bool) :
    (setBit x i b).toNat.testBit j = if j = i then b else x.toNat.testBit j := by
  have hshift : (UInt8.ofNat i).toNat % 8 = i := by
    rw [UInt8.toNat_ofNat']
    omega
  have hone : ∀ y : UInt8, y.toNat < 2 ^ 1 →
      (y <<< UInt8.ofNat i).toNat.testBit j = (decide (j = i) && y.toNat.testBit 0) := by
    intro y hy
    rw [UInt8.toNat_shiftLeft, hshift, Nat.testBit_mod_two_pow, Nat.testBit_shiftLeft,
      decide_eq_true hj, Bool.true_and]
    rcases Nat.lt_trichotomy j i with hlt | rfl | hgt
    · rw [decide_eq_false (by omega), decide_eq_false (by omega)]
      rfl
    · simp
    · have hhigh : y.toNat.testBit (j - i) = false :=
        testBit_of_lt_of_le hy (by omega)
      rw [hhigh, decide_eq_false (p := j = i) (by omega), Bool.and_false]
      rfl
  have hnot : ∀ y : UInt8, (~~~ y).toNat.testBit j = !y.toNat.testBit j := by
    intro y
    change (~~~ y.toBitVec).toNat.testBit j = !y.toBitVec.toNat.testBit j
    rw [BitVec.testBit_toNat, BitVec.testBit_toNat, BitVec.getLsbD_not, decide_eq_true hj,
      Bool.true_and]
  rw [setBit, UInt8.toNat_or, UInt8.toNat_and, Nat.testBit_or, Nat.testBit_and, hnot,
    hone 1 (by decide), hone _ (by cases b <;> decide)]
  by_cases h : j = i
  · cases b <;> simp [h]
  · simp [h]

section Operations

variable {v w : BitString} {bs cs : List Bool}
variable {i : Nat}

/-- The byte of a bit that is held is there. -/
theorem Holds.getElem?_byte (h : v.Holds bs) (hi : i < bs.length) :
    ∃ x, v.bytes[i / 8]? = some x := by
  have hlength := h.length_bytes
  rw [bytesFor] at hlength
  exact ⟨_, getElem?_eq_getElem (by omega)⟩

theorem Holds.get (h : v.Holds bs) (i : Nat) : v.get? i = bs[i]? := by
  rw [get?, h.length_eq]
  by_cases hi : i < bs.length
  · obtain ⟨x, hx⟩ := h.getElem?_byte hi
    have hbit := h.bit_eq i
    rw [Bytes.bit, hx, getElem?_eq_getElem hi] at hbit
    rw [if_pos hi, hx, getElem?_eq_getElem hi]
    exact congrArg some hbit
  · rw [if_neg hi, getElem?_eq_none (by omega)]

theorem Holds.set (h : v.Holds bs) {i : Nat} (hi : i < bs.length) (b : Bool) :
    ∃ u, v.set? i b = some u ∧ u.Holds (bs.set i b) := by
  obtain ⟨x, hx⟩ := h.getElem?_byte hi
  refine ⟨{ v with bytes := v.bytes.set (i / 8) (setBit x (i % 8) b) }, ?_, ?_, ?_, fun k => ?_⟩
  · rw [set?, h.length_eq, if_pos hi, hx]
    rfl
  · rw [length_set]
    exact h.length_eq
  · rw [length_set, length_set]
    exact h.length_bytes
  · have hk := h.bit_eq k
    rw [Bytes.bit] at hk
    have hbyte : i / 8 < v.bytes.length := (List.getElem?_eq_some_iff.mp hx).1
    rw [Bytes.bit, getElem?_set, getElem?_set]
    by_cases hsame : i / 8 = k / 8
    · -- only the bit itself is another one in the byte that is written
      rw [if_pos hsame, if_pos hbyte, Option.map_some, Option.getD_some,
        testBit_setBit x (by omega) (by omega)]
      rw [← hsame, hx, Option.map_some, Option.getD_some] at hk
      by_cases hik : i = k
      · rw [if_pos (by rw [hik]), if_pos hik, if_pos hi]
        rfl
      · rw [if_neg (by omega), if_neg hik, hk]
    · rw [if_neg hsame, if_neg (by rintro rfl; exact hsame rfl), hk]

theorem Holds.resize (h : v.Holds bs) (n : Nat) :
    (v.resize n).Holds (bs.take n ++ replicate (n - bs.length) false) := by
  have hneed := h.length_bytes
  have hlength : (v.bytes.take (bytesFor n) ++ replicate (bytesFor n - v.bytes.length) 0).length
      = bytesFor n := by
    rw [length_append, length_take, length_replicate]
    omega
  have hlist : (range n).map (Bytes.bit
      (v.bytes.take (bytesFor n) ++ replicate (bytesFor n - v.bytes.length) 0))
      = bs.take n ++ replicate (n - bs.length) false := by
    apply ext_getElem (by simp; omega)
    intro i hi _
    rw [length_map, length_range] at hi
    have hin : i < 8 * bytesFor n := by
      rw [bytesFor]
      omega
    -- a bit of a byte that is kept, or of one that neither string has
    have hbit : Bytes.bit (v.bytes.take (bytesFor n) ++
        replicate (bytesFor n - v.bytes.length) 0) i = v.bytes.bit i := by
      rw [Bytes.bit_append, length_take, Bytes.bit_take hin, Bytes.bit_replicate_zero]
      split
      · rfl
      · exact (Bytes.bit_of_length_le (by omega)).symm
    rw [getElem_map, getElem_range, hbit, h.bit_eq, getElem_append]
    by_cases hold : i < bs.length
    · rw [dif_pos (by rw [length_take]; omega), getElem_take, getElem?_eq_getElem hold]
      rfl
    · rw [dif_neg (by rw [length_take]; omega), getElem_replicate,
        getElem?_eq_none (by omega)]
      rfl
  exact hlist ▸ holds_clearPadding hlength

theorem Holds.append (h : v.Holds bs) (h' : w.Holds cs) (hlength : bs.length + cs.length < 2 ^ 64) :
    ∃ u, v.append w = (u, none) ∧ u.Holds (bs ++ cs) := by
  rw [← h.length_eq, ← h'.length_eq] at hlength
  obtain ⟨u, happend, hu, hbytes, hbit⟩ := append_eq h.wellFormed h'.wellFormed hlength
  rw [h.length_eq, h'.length_eq, ← length_append] at hu hbytes
  refine ⟨u, happend, hu, hbytes, fun i => ?_⟩
  rw [hbit, h.bit_eq, h'.bit_eq, h.length_eq, getElem?_append]
  split <;> rfl

theorem Holds.xor (h : v.Holds bs) (h' : w.Holds cs) (hlength : bs.length = cs.length) :
    ∃ u, v.xor? w = some u ∧ u.Holds (zipWith Bool.xor bs cs) := by
  have hbytes : v.bytes.length = w.bytes.length := by rw [h.length_bytes, h'.length_bytes, hlength]
  have hzip : (zipWith Bool.xor bs cs).length = bs.length := by
    rw [length_zipWith, ← hlength, Nat.min_self]
  have hdrop : v.bytes.drop w.bytes.length = [] := drop_eq_nil_of_le (Nat.le_of_eq hbytes)
  refine ⟨{ v with bytes := Bytes.xor v.bytes w.bytes }, ?_, ?_, ?_, fun i => ?_⟩
  · rw [xor?, if_pos (by rw [h.length_eq, h'.length_eq, hlength]), hdrop, append_nil]
  · exact h.length_eq.trans hzip.symm
  · rw [hzip, ← h.length_bytes, Bytes.xor, length_zipWith, ← hbytes, Nat.min_self]
  · rw [Bytes.bit_xor hbytes, h.bit_eq, h'.bit_eq, getElem?_zipWith]
    by_cases hi : i < bs.length
    · rw [getElem?_eq_getElem hi, getElem?_eq_getElem (hlength ▸ hi)]
      rfl
    · rw [getElem?_eq_none (by omega), getElem?_eq_none (by omega)]
      rfl

/-- A stretch has the bits from its first place on; those that are not there are clear. -/
theorem Holds.stretch (h : v.Holds bs) {width : Nat} (hi : width * (i + 1) < 2 ^ 64) :
    ∃ bytes, v.stretch? width i = some bytes ∧ bytes.length = width ∧
      ∀ j < 8 * width, bytes.bit j = (bs[8 * width * i + j]?).getD false := by
  refine ⟨_, by rw [stretch?, Nat.pow_eq, if_pos hi], ?_, fun j hj => ?_⟩
  · rw [length_append, length_replicate, length_take]
    omega
  · have hplace : 8 * (width * i) + j = 8 * width * i + j := by rw [Nat.mul_assoc]
    rw [Bytes.bit_append, Bytes.bit_replicate_zero, Bytes.bit_take hj, Bytes.bit_drop, h.bit_eq,
      hplace]
    split
    · rfl
    · next hout =>
        rw [length_take, length_drop] at hout
        rw [← h.bit_eq, ← hplace]
        exact (Bytes.bit_of_length_le (by omega)).symm

theorem Holds.block (h : v.Holds bs) (hi : 16 * (i + 1) < 2 ^ 64) :
    ∃ b, v.block? i = some b ∧ ∀ j < 128, b.bit j = (bs[128 * i + j]?).getD false := by
  obtain ⟨bytes, hstretch, -, hbit⟩ := h.stretch hi
  refine ⟨Block.ofBytes bytes, by rw [block?, hstretch, Option.map_some], fun j hj => ?_⟩
  rw [Block.bit_ofBytes bytes hj, hbit j hj]

theorem Holds.word (h : v.Holds bs) (hi : 8 * (i + 1) < 2 ^ 64) :
    ∃ x < 2 ^ 64, v.word? i = some x ∧ ∀ j < 64, x.testBit j = (bs[64 * i + j]?).getD false := by
  obtain ⟨bytes, hstretch, hlength, hbit⟩ := h.stretch hi
  refine ⟨Bytes.toNatLE bytes, ?_, by rw [word?, hstretch, Option.map_some], fun j hj => ?_⟩
  · apply Nat.lt_pow_two_of_testBit
    intro j hj
    rw [Bytes.testBit_toNatLE, Bytes.bit_of_length_le (by omega)]
  · rw [Bytes.testBit_toNatLE, hbit j hj]

end Operations

/-! ## Strings built by the operations -/

/-- The strings that the operations build.  A message may bring in others. -/
inductive Built : BitString → Prop where
  | zeros (n : Nat) : Built (zeros n)
  | random (n : Nat) (s : Keystream) : Built (random n s).1
  | ofBits (bs : List Bool) : Built (ofBits bs)
  | ofBytes {bytes : Bytes} {n : Nat} {v : BitString} (h : ofBytes bytes n = .ok v) : Built v
  | read {bytes : Bytes} {v : BitString} {n : Nat} (h : read bytes = .ok (v, n)) : Built v
  | set {v u : BitString} {i : Nat} {b : Bool} (hv : Built v) (h : v.set? i b = some u) : Built u
  | resize {v : BitString} (hv : Built v) (n : Nat) : Built (v.resize n)
  | append {v w : BitString} (hv : Built v) (hw : Built w) : Built (v.append w).1
  | xor {v w u : BitString} (hv : Built v) (hw : Built w) (h : v.xor? w = some u) : Built u

theorem wellFormed_of_ofBytes (h : ofBytes bytes n = .ok v) : v.WellFormed := by
  have hlength := length_of_ofBytes h
  rw [ofBytes_eq hlength] at h
  cases h
  exact wellFormed_clearPadding hlength

theorem wellFormed_of_read (h : read bytes = .ok (v, n)) : v.WellFormed := by
  simp only [read, bind, Except.bind, throw, throwThe, MonadExceptOf.throw] at h
  split at h
  · cases h
  split at h
  · cases h
  split at h
  · cases h
  · next u hofBytes =>
      split at h
      · cases h
      · cases h
        exact wellFormed_of_ofBytes hofBytes

/-- **What the operations build is well formed.** -/
theorem Built.wellFormed (h : v.Built) : v.WellFormed := by
  induction h with
  | zeros n => exact (holds_zeros n).wellFormed
  | random n s => exact wellFormed_clearPadding (Keystream.length_fill _ s)
  | ofBits bs => exact wellFormed_ofBits bs
  | ofBytes h => exact wellFormed_of_ofBytes h
  | read h => exact wellFormed_of_read h
  | @set v u i b hv h ih =>
    by_cases hi : i < v.length
    · obtain ⟨u', hset, hu⟩ := ih.holds.set (ih.length_bits.symm ▸ hi) b
      rw [hset] at h
      cases h
      exact hu.wellFormed
    · rw [set?, if_neg hi] at h
      cases h
  | resize hv n ih => exact (ih.holds.resize n).wellFormed
  | @append v w hv hw ihv ihw =>
    by_cases hlength : v.bits.length + w.bits.length < 2 ^ 64
    · obtain ⟨u, happend, hu⟩ := ihv.holds.append ihw.holds hlength
      rw [happend]
      exact hu.wellFormed
    · rw [ihv.length_bits, ihw.length_bits] at hlength
      rw [BitString.append, Nat.pow_eq, if_neg hlength]
      exact ihv
  | @xor v w u hv hw h ihv ihw =>
    by_cases hlength : v.length = w.length
    · obtain ⟨u', hxor, hu⟩ := ihv.holds.xor ihw.holds (by
        rw [ihv.length_bits, ihw.length_bits, hlength])
      rw [hxor] at h
      cases h
      exact hu.wellFormed
    · rw [xor?, if_neg hlength] at h
      cases h

/-- What it is for a string to be as good as the list of its bits, next to other strings that
the operations build. -/
structure ActsAsList (v : BitString) : Prop where
  length_bytes : v.bytes.length = (v.length + 7) / 8
  padding : ∀ i, v.length ≤ i → v.bytes.bit i = false
  length_bits : v.bits.length = v.length
  eq_iff : ∀ w, Built w → (v = w ↔ v.bits = w.bits)
  get : ∀ i, v.get? i = v.bits[i]?
  set : ∀ i b, if i < v.length then ∃ u, v.set? i b = some u ∧ u.bits = v.bits.set i b
    else v.set? i b = none
  resize : ∀ n, (v.resize n).bits = v.bits.take n ++ replicate (n - v.length) false
  append : ∀ w, Built w →
    if v.length + w.length < 2 ^ 64 then ∃ u, v.append w = (u, none) ∧ u.bits = v.bits ++ w.bits
    else v.append w = (v, some .fault)
  xor : ∀ w, Built w →
    if v.length = w.length then ∃ u, v.xor? w = some u ∧ u.bits = zipWith Bool.xor v.bits w.bits
    else v.xor? w = none
  block : ∀ i, if 16 * (i + 1) < 2 ^ 64
    then ∃ b, v.block? i = some b ∧ ∀ j < 128, b.bit j = (v.bits[128 * i + j]?).getD false
    else v.block? i = none
  word : ∀ i, if 8 * (i + 1) < 2 ^ 64
    then ∃ x < 2 ^ 64, v.word? i = some x ∧ ∀ j < 64, x.testBit j = (v.bits[64 * i + j]?).getD false
    else v.word? i = none

theorem Built.actsAsList (hv : v.Built) : v.ActsAsList := by
  have hwell := hv.wellFormed
  have hlength := hwell.length_bits
  have hbits := hwell.holds
  constructor
  case length_bytes => exact hwell.length_bytes
  case padding => exact hwell.clear
  case length_bits => exact hlength
  case eq_iff =>
    intro w hw
    refine ⟨fun heq => heq ▸ rfl, fun heq => hbits.unique ?_⟩
    rw [heq]
    exact hw.wellFormed.holds
  case get => exact hbits.get
  case set =>
    intro i b
    split
    · next hi =>
        obtain ⟨u, hset, hu⟩ := hbits.set (hlength.symm ▸ hi) b
        exact ⟨u, hset, hu.bits_eq⟩
    · next hi => rw [set?, if_neg hi]
  case resize =>
    intro n
    rw [(hbits.resize n).bits_eq, hlength]
  case append =>
    intro w hw
    split
    · next hsum =>
        rw [← hlength, ← hw.wellFormed.length_bits] at hsum
        obtain ⟨u, happend, hu⟩ := hbits.append hw.wellFormed.holds hsum
        exact ⟨u, happend, hu.bits_eq⟩
    · next hsum => rw [BitString.append, Nat.pow_eq, if_neg hsum]
  case xor =>
    intro w hw
    split
    · next heq =>
        rw [← hlength, ← hw.wellFormed.length_bits] at heq
        obtain ⟨u, hxor, hu⟩ := hbits.xor hw.wellFormed.holds heq
        exact ⟨u, hxor, hu.bits_eq⟩
    · next hne => rw [xor?, if_neg hne]
  case block =>
    intro i
    split
    · next hi => exact hbits.block hi
    · next hi => rw [block?, stretch?, Nat.pow_eq, if_neg hi, Option.map_none]
  case word =>
    intro i
    split
    · next hi => exact hbits.word hi
    · next hi => rw [word?, stretch?, Nat.pow_eq, if_neg hi, Option.map_none]

/-- **Strings that are built are lists of bits.**  Clear, given and packed bits are the bits of
the string that is made of them.  A string that any sequence of operations has built has the
bytes that its bits need and clear padding, equals no other string with the same bits, and every
operation on it does what it says on the list.  A block or a word is the bits from its first
place on, with clear ones past the end, as long as the place where it ends is a machine word,
counted in bytes; past that there is none. -/
theorem built_acts_as_list {v : BitString} (hv : v.Built) (n : Nat) (bs : List Bool) (bytes : Bytes) :
    (zeros n).bits = replicate n false ∧ (ofBits bs).bits = bs ∧
    (bytes.length = bytesFor n →
      ∃ u, ofBytes bytes n = .ok u ∧ u.bits = (bytes.flatMap byteBits).take n) ∧
    ActsAsList v := by
  refine ⟨(holds_zeros n).bits_eq, (holds_ofBits bs).bits_eq, fun hlength => ?_, hv.actsAsList⟩
  refine ⟨_, ofBytes_eq hlength, (holds_clearPadding hlength).bits_eq.trans ?_⟩
  exact (bits_eq_map (v := ⟨bytes, n⟩) (Nat.le_of_eq hlength.symm)).symm

/-- Three bits made nine, the last of which is then set. -/
theorem built_acts_as_list_nine :
    ∃ v, ((ofBits [true, false, true]).resize 9).set? 8 true = some v ∧ v.bytes = [5, 1] ∧
      Built v ∧ ActsAsList v ∧ ∃ u, ofBytes [255] 3 = .ok u ∧ u.bits = [true, true, true] := by
  have hset : ((ofBits [true, false, true]).resize 9).set? 8 true = some ⟨[5, 1], 9⟩ := by cbv
  have hbuilt : Built ⟨[5, 1], 9⟩ := ((Built.ofBits [true, false, true]).resize 9).set hset
  obtain ⟨-, -, hbytes, hacts⟩ := built_acts_as_list hbuilt 3 [] [255]
  exact ⟨_, hset, rfl, hbuilt, hacts, hbytes rfl⟩

/-- Past the end of three bits there are clear blocks, but not one that ends past a machine
word. -/
theorem no_block_past_machine_word :
    Built (ofBits [true, false, true]) ∧
      (ofBits [true, false, true]).block? (2 ^ 60 - 2) = some .zero ∧
      (ofBits [true, false, true]).block? (2 ^ 60 - 1) = none :=
  ⟨.ofBits _, by decide +kernel, by decide +kernel⟩

end BitString

end Beaver
