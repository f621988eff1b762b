import Mathlib
import Beaver.Proofs.Ring.BitSums

/-!
# Rectangles the other way round

Row `i` of the transpose of a rectangle is put together from bit `i` of all rows, by additions in
the ring.  It is the integer with these bits reduced by the order (`Rectangle.toNat_transposed`),
so it has exactly these bits unless they are all set in a prime field, where they stand for zero
(`Rectangle.bits_transposed_iff`).
-/

namespace Beaver

open List
open ShareRing

/-- The rings that have an element for every bit pattern, and the prime fields, which lack the one
with all bits set. -/
theorem RingName.order_cases (r : RingName) :
    (r ≠ .mersenne61 ∧ r ≠ .mersenne127) ∧ r.order = 2 ^ bits r.Carrier ∨
    ¬ (r ≠ .mersenne61 ∧ r ≠ .mersenne127) ∧ r.order = 2 ^ bits r.Carrier - 1 := by
  cases r with
  | mersenne61 | mersenne127 => exact .inr ⟨by decide, rfl⟩
  | gf128 | gf2 | word64 | word128 => exact .inl ⟨by decide, rfl⟩

section BitSum

variable {n : Nat} {f : Nat → Bool}

theorem bitSum_of_all (h : ∀ j < n, f j = true) : bitSum n f = 2 ^ n - 1 := by
  apply Nat.eq_of_testBit_eq
  intro j
  rw [Nat.testBit_two_pow_sub_one]
  rcases Nat.lt_or_ge j n with hj | hj
  · rw [testBit_bitSum n f hj, h j hj, decide_eq_true hj]
  · rw [decide_eq_false (by omega)]
    exact Nat.testBit_lt_two_pow ((bitSum_lt n f).trans_le (Nat.pow_le_pow_right (by omega) hj))

theorem bitSum_lt_of_clear {j : Nat} (hj : j < n) (hclear : f j = false) :
    bitSum n f < 2 ^ n - 1 := by
  refine Nat.lt_of_le_of_ne (Nat.le_sub_one_of_lt (bitSum_lt n f)) fun h => ?_
  have hbit := testBit_bitSum n f hj
  rw [h, Nat.testBit_two_pow_sub_one, decide_eq_true hj, hclear] at hbit
  cases hbit

end BitSum

namespace Rectangle

variable {α β : Type} [ShareRing α] [ShareRing β]

theorem transpose_ofFn (f : Nat → β) :
    (ofFn f : Rectangle α β).transpose
      = ofFn fun i => ofBits ((range (bits α)).map fun j => bit (f j) i) := by
  simp only [transpose, toList_ofFn, map_map]
  rfl

omit [ShareRing β] in
theorem getElem_ofFn (f : Nat → β) {i : Nat} (hi : i < bits α) :
    (ofFn f : Rectangle α β).rows[i] = f i :=
  Vector.getElem_ofFn hi

variable {u v : RingName}

/-- **A transposed row** is the integer with the bits across the rows, reduced by the order. -/
theorem toNat_transposed (f : Nat → v.Carrier) (i : Nat) :
    toNat (ofBits ((range (bits u.Carrier)).map fun j => bit (f j) i) : u.Carrier)
      = bitSum (bits u.Carrier) (fun j => bit (f j) i) % u.order := by
  rw [ShareRing.ofBits_map_range, RingName.toNat_total_basis _ le_rfl]

/-- The bits are kept unless they are all set in a prime field. -/
theorem bits_transposed_iff (f : Nat → v.Carrier) (i : Nat) :
    (∀ j < bits u.Carrier, bit (ofBits ((range (bits u.Carrier)).map fun j => bit (f j) i)
        : u.Carrier) j = bit (f j) i) ↔
      (u ≠ .mersenne61 ∧ u ≠ .mersenne127) ∨ ∃ j < bits u.Carrier, bit (f j) i = false := by
  have hkept : bitSum (bits u.Carrier) (fun j => bit (f j) i) < u.order →
      ∀ j < bits u.Carrier, bit (ofBits ((range (bits u.Carrier)).map fun j => bit (f j) i)
        : u.Carrier) j = bit (f j) i := by
    intro hlt j hj
    rw [bit, toNat_transposed, Nat.mod_eq_of_lt hlt, testBit_bitSum _ _ hj]
  rcases u.order_cases with ⟨hbinary, horder⟩ | ⟨hprime, horder⟩
  · exact iff_of_true (hkept (horder ▸ bitSum_lt _ _)) (.inl hbinary)
  · rw [or_iff_right hprime]
    constructor
    · intro h
      by_contra hclear
      have hset : ∀ j < bits u.Carrier, bit (f j) i = true := by simpa using hclear
      -- all bits set are the order, which is reduced to zero
      have hpos : 0 < bits u.Carrier := by cases u <;> decide
      have hzero := h 0 hpos
      rw [bit, toNat_transposed, bitSum_of_all hset, ← horder, Nat.mod_self, Nat.zero_testBit,
        hset 0 hpos] at hzero
      cases hzero
    · rintro ⟨j, hj, hclear⟩
      exact hkept (horder ▸ bitSum_lt_of_clear hj hclear)

/-- **Transposing is exact.**  Row `i` of the transpose of a rectangle over any two rings is, also
in machine words, the integer with bit `i` of every row, reduced by the order of the ring.  Its bits
are exactly these, except in a prime field if all of them are set.  In a ring that is no prime
field, transposing twice gives the rectangle back. -/
theorem transpose_exact (u v : RingName) (r : Rectangle u.Carrier v.Carrier) :
    r.transpose.rows.toList.length = bits v.Carrier ∧
    (∀ (i : Nat) (_ : i < bits v.Carrier),
      u.ofBits? (r.rows.toList.map fun row => bit row i) = some (toNat r.transpose.rows[i]) ∧
      toNat r.transpose.rows[i]
        = (∑ j : Fin (bits u.Carrier), (bit r.rows[j] i).toNat * 2 ^ j.val) % u.order ∧
      ((∀ (j : Nat) (_ : j < bits u.Carrier), bit r.transpose.rows[i] j = bit r.rows[j] i) ↔
        (u ≠ .mersenne61 ∧ u ≠ .mersenne127) ∨
          ∃ (j : Nat) (_ : j < bits u.Carrier), bit r.rows[j] i = false)) ∧
    (u ≠ .mersenne61 → u ≠ .mersenne127 → r.transpose.transpose = r) := by
  obtain ⟨f, rfl⟩ := r.exists_ofFn
  rw [transpose_ofFn]
  refine ⟨by simp, fun i hi => ⟨?_, ?_, ?_⟩, fun h61 h127 => ?_⟩
  · rw [toList_ofFn, map_map, getElem_ofFn]
    exact RingName.ofBits?_eq (by simp)
  · rw [getElem_ofFn, toNat_transposed, bitSum, Finset.sum_range]
    simp [getElem_ofFn]
  · simp only [getElem_ofFn, bits_transposed_iff, exists_prop]
  · rw [transpose_ofFn]
    refine congrArg mk (Vector.ext fun j hj => ?_)
    have hbits : ((range (bits v.Carrier)).map fun i => bit (ofBits
        ((range (bits u.Carrier)).map fun j => bit (f j) i) : u.Carrier) j)
        = (range (bits v.Carrier)).map (bit (f j)) :=
      map_congr_left fun i _ => (bits_transposed_iff f i).mpr (.inl ⟨h61, h127⟩) j hj
    rw [Vector.getElem_ofFn, Vector.getElem_ofFn]
    exact (congrArg ofBits hbits).trans (RingName.ofBits_bits (f j))

/-- All bits set: a word keeps them, and they stand for zero in a prime field. -/
theorem transpose_exact_ones : (RingName.word64 ≠ .mersenne61 ∧ RingName.word64 ≠ .mersenne127) ∧
    (constant ⟨true⟩ : Rectangle RingName.word64.Carrier RingName.gf2.Carrier).transpose.transpose
      = constant ⟨true⟩ ∧
    toNat (constant ⟨true⟩ : Rectangle RingName.mersenne61.Carrier
      RingName.gf2.Carrier).transpose.rows[0] = 0 := by
  have hword := transpose_exact .word64 .gf2 (constant ⟨true⟩)
  have hprime := transpose_exact .mersenne61 .gf2 (constant ⟨true⟩)
  refine ⟨by decide, hword.2.2 (by decide) (by decide), ?_⟩
  exact ((hprime.2.1 0 (by decide)).2.1).trans (by decide)

end Rectangle

end Beaver
