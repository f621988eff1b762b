import Mathlib
import Beaver.Proofs.Faults.Arithmetic
import Beaver.Proofs.WireForms

/-!
# Elements and their bits

An element is put together from its bits by adding up the powers of two that the set ones stand
for.  As long as the sum has not reached bit `j`, adding the power of two at `j` is the same in
all rings (`RingName.toNat_add_basis`): an exclusive or does not carry, and only the last
addition in a prime field can reach the modulus.  So any bits give the integer with these bits,
reduced by the order of the ring (`RingName.toNat_ofBits`).  The bits of an element give the
element back, and the rows that the bits of a factor select add up to a product
(`bits_compose`).
-/

namespace Beaver

open List hiding sum
open ShareRing

/-- The integer with the first `n` of the given bits. -/
def bitSum (n : Nat) (f : Nat → Bool) : Nat := ∑ j ∈ Finset.range n, (f j).toNat * 2 ^ j

section BitSum

variable (n : Nat) (f : Nat → Bool)

theorem bitSum_succ : bitSum (n + 1) f = bitSum n f + (f n).toNat * 2 ^ n :=
  Finset.sum_range_succ _ n

theorem bitSum_lt : bitSum n f < 2 ^ n := by
  induction n with
  | zero => exact Nat.one_pos
  | succ n ih =>
    rw [bitSum_succ, Nat.pow_succ]
    cases f n with
    | false => simp only [Bool.toNat_false]; omega
    | true => simp only [Bool.toNat_true]; omega

/-- The integer has the bits it was put together from. -/
theorem testBit_bitSum {i : Nat} (h : i < n) : (bitSum n f).testBit i = f i := by
  induction n with
  | zero => omega
  | succ n ih =>
    rw [bitSum_succ, Nat.add_comm]
    cases hbit : f n with
    | false =>
      rw [Bool.toNat_false, Nat.zero_mul, Nat.zero_add]
      rcases Nat.lt_succ_iff_lt_or_eq.mp h with hi | rfl
      · exact ih hi
      · rw [hbit, Nat.testBit_lt_two_pow (bitSum_lt i f)]
    | true =>
      rw [Bool.toNat_true, Nat.one_mul]
      rcases Nat.lt_succ_iff_lt_or_eq.mp h with hi | rfl
      · rw [Nat.testBit_two_pow_add_gt hi, ih hi]
      · rw [Nat.testBit_two_pow_add_eq, Nat.testBit_lt_two_pow (bitSum_lt i f), hbit]
        rfl

end BitSum

/-- Above the highest bit an exclusive or is a sum. -/
theorem xor_two_pow {x j : Nat} (h : x < 2 ^ j) : x ^^^ 2 ^ j = x + 2 ^ j := by
  have hor : 2 ^ j + x = 2 ^ j ||| x := by simpa using Nat.two_pow_add_eq_or_of_lt h 1
  rw [Nat.add_comm, hor]
  apply Nat.eq_of_testBit_eq
  intro i
  rw [Nat.testBit_xor, Nat.testBit_or, Nat.testBit_two_pow]
  by_cases hi : j = i
  · subst hi
    simp [Nat.testBit_lt_two_pow h]
  · simp [hi]

namespace RingName

variable {r : RingName}

theorem ring_carrier (r : RingName) : WordRing.ring r.Carrier = r := by
  cases r <;> rfl

/-- The words that a sum is found in. -/
theorem add?_toNat (x y : r.Carrier) : r.add? (toNat x) (toNat y) = some (toNat (x + y)) := by
  have h := WordRing.add_eq x y
  rwa [ring_carrier] at h

variable {j : Nat}

theorem basis?_toNat (hj : j < bits r.Carrier) :
    r.basis? j = some (toNat (basis j : r.Carrier)) := by
  have h := WordRing.basis_eq hj
  rwa [ring_carrier] at h

theorem toNat_basis (hj : j < bits r.Carrier) : toNat (basis j : r.Carrier) = 2 ^ j := by
  have hbasis := basis?_toNat hj
  rw [basis?] at hbasis
  split at hbasis
  · next hgf2 =>
      subst hgf2
      obtain rfl : j = 0 := Nat.lt_one_iff.mp hj
      rfl
  · split at hbasis
    · exact (Option.some.inj hbasis).symm
    · cases hbasis

/-- **The next bit is added alike in all rings**: the sum is reduced by the order. -/
theorem add?_two_pow {a : Nat} (ha : a < r.order) (hj : j < bits r.Carrier) (haj : a < 2 ^ j) :
    r.add? a (2 ^ j) = some ((a + 2 ^ j) % r.order) := by
  have hpow : 2 ^ j ≤ 2 ^ (bits r.Carrier - 1) := Nat.pow_le_pow_right (by omega) (by omega)
  -- Without a carry the sum has at most the bits of an element.
  have hxor : bits r.Carrier ≠ 0 → r.order = 2 ^ bits r.Carrier →
      some (a ^^^ 2 ^ j) = some ((a + 2 ^ j) % r.order) := by
    intro hbits horder
    have htop : 2 ^ bits r.Carrier = 2 * 2 ^ (bits r.Carrier - 1) := by
      rw [← Nat.pow_succ', Nat.succ_eq_add_one, Nat.sub_add_cancel (by omega)]
    rw [xor_two_pow haj, Nat.mod_eq_of_lt (by omega)]
  cases r with
  | mersenne61 => exact addMod?_eq (by decide) ha (Nat.lt_of_le_of_lt hpow (by decide))
  | mersenne127 => exact addMod?_eq (by decide) ha (Nat.lt_of_le_of_lt hpow (by decide))
  | gf128 => exact hxor (by decide) rfl
  | gf2 => exact hxor (by decide) rfl
  | word64 => rfl
  | word128 => rfl

theorem toNat_add_basis (hj : j < bits r.Carrier) {x : r.Carrier} (hx : toNat x < 2 ^ j) :
    toNat (x + basis j) = (toNat x + 2 ^ j) % r.order := by
  have hadd := add?_toNat x (basis j)
  rw [toNat_basis hj, add?_two_pow (toNat_lt_order x) hj hx] at hadd
  exact (Option.some.inj hadd).symm

/-- What the first bits stand for is the integer with these bits, reduced by the order. -/
theorem toNat_total_basis (f : Nat → Bool) {n : Nat} (hn : n ≤ bits r.Carrier) :
    toNat (total n fun j => scale (basis j) (f j) : r.Carrier) = bitSum n f % r.order := by
  induction n with
  | zero =>
    change toNat (0 : r.Carrier) = 0
    cases r <;> rfl
  | succ n ih =>
    have hsum := ih (by omega)
    rw [total_succ, bitSum_succ]
    cases f n with
    | false => rw [scale, if_neg (by decide), add_zero, hsum, Bool.toNat_false, Nat.zero_mul, Nat.add_zero]
    | true =>
      have hlt : toNat (total n fun j => scale (basis j) (f j) : r.Carrier) < 2 ^ n :=
        hsum ▸ Nat.lt_of_le_of_lt (Nat.mod_le _ _) (bitSum_lt n f)
      rw [scale, if_pos rfl, toNat_add_basis (by omega) hlt, hsum, Nat.mod_add_mod,
        Bool.toNat_true, Nat.one_mul]

end RingName

section OfBits

variable {α : Type} [ShareRing α]

theorem ShareRing.ofBits_concat (bs : List Bool) (b : Bool) :
    (ofBits (bs ++ [b]) : α) = if b then ofBits bs + basis bs.length else ofBits bs := by
  cases b <;> simp [ofBits, sum, zipIdx_append]

/-- Putting together bits is adding up what the set ones stand for. -/
theorem ShareRing.ofBits_map_range [LawfulShareRing α] (f : Nat → Bool) (n : Nat) :
    (ofBits ((range n).map f) : α) = total n fun j => scale (basis j) (f j) := by
  induction n with
  | zero => rfl
  | succ n ih =>
    rw [range_succ, map_append, map_singleton, ofBits_concat, total_succ, ih,
      length_map, length_range]
    cases f n <;> simp [scale]

theorem RingName.ofBits?_concat (r : RingName) (bs : List Bool) (b : Bool) :
    r.ofBits? (bs ++ [b]) = (r.ofBits? bs).bind fun x =>
      if b then (r.basis? bs.length).bind (r.add? x) else some x := by
  cases b <;> simp [RingName.ofBits?, zipIdx_append, foldlM_append]

end OfBits

namespace RingName

variable {r : RingName}
variable {bs : List Bool}

/-- Putting together at most the bits of an element has no fault. -/
theorem ofBits?_eq (h : bs.length ≤ bits r.Carrier) :
    r.ofBits? bs = some (toNat (ofBits bs : r.Carrier)) := by
  induction bs using reverseRecOn with
  | nil => cases r <;> rfl
  | append_singleton bs b ih =>
    rw [length_append, length_singleton] at h
    rw [ofBits?_concat, ofBits_concat, ih (by omega), Option.bind_some]
    cases b with
    | false => rfl
    | true =>
      rw [if_pos rfl, if_pos rfl, basis?_toNat (by omega)]
      exact add?_toNat _ _

/-- The bits of an element, put together again. -/
theorem ofBits_bits (x : r.Carrier) : ofBits ((range (bits r.Carrier)).map (bit x)) = x := by
  rw [ofBits_map_range]
  exact LawfulShareRing.sum_bits x

theorem mapM_bit? (x : r.Carrier) : (range (bits r.Carrier)).mapM (r.bit? (toNat x))
    = some ((range (bits r.Carrier)).map (bit x)) := by
  refine mapM_eq_some fun j hj => ?_
  have h := WordRing.bit_eq x (mem_range.mp hj)
  rwa [ring_carrier] at h

/-- Any bits give the integer with these bits, reduced by the order. -/
theorem toNat_ofBits (h : bs.length ≤ bits r.Carrier) :
    toNat (ofBits bs : r.Carrier) = bitSum bs.length (fun j => bs.getD j false) % r.order := by
  have hbs : bs = (range bs.length).map fun j => bs.getD j false := by
    refine ext_getElem (by simp) fun j hj _ => ?_
    rw [getElem_map, getElem_range, getD_eq_getElem _ _ hj]
  rw [← toNat_total_basis _ h, ← ofBits_map_range, ← hbs]

/-- In a ring that has an element for every bit pattern, the bits are kept. -/
theorem bit_ofBits (horder : r.order = 2 ^ bits r.Carrier) (h : bs.length ≤ bits r.Carrier)
    {j : Nat} (hj : j < bs.length) : bit (ofBits bs : r.Carrier) j = bs[j] := by
  have hlt : bitSum bs.length (fun j => bs.getD j false) < r.order := by
    rw [horder]
    exact Nat.lt_of_lt_of_le (bitSum_lt _ _) (Nat.pow_le_pow_right (by omega) h)
  rw [bit, toNat_ofBits h, Nat.mod_eq_of_lt hlt, testBit_bitSum _ _ hj, getD_eq_getElem _ _ hj]

end RingName

namespace Rectangle

variable {α β : Type} [ShareRing α]

/-- Every row is the same. -/
def constant (x : β) : Rectangle α β := ⟨.replicate _ x⟩

/-- Row `j` of the second rectangle where bit `j` is set, and of the first elsewhere. -/
def choose (r s : Rectangle α β) (choice : α) : Rectangle α β :=
  ⟨.ofFn fun j => if bit choice j then s.rows.get j else r.rows.get j⟩

theorem constant_eq_ofFn (x : β) : (constant x : Rectangle α β) = ofFn fun _ => x := by
  refine congrArg mk (Vector.ext fun j hj => ?_)
  simp

theorem choose_ofFn (f g : Nat → β) (choice : α) :
    (ofFn f : Rectangle α β).choose (ofFn g) choice
      = ofFn fun j => if bit choice j then g j else f j := by
  simp [choose, ofFn]

/-- **The rows that a factor selects, corrected where a bit is set**, add up to the first rows
and the product. -/
theorem compose_choose_addWhere [LawfulShareRing α] (m₀ m₁ : Rectangle α α) (a b : α) :
    ((m₀.choose m₁ b).addWhere b ((m₀.sub m₁).add (constant a))).compose = m₀.compose + a * b := by
  obtain ⟨f, rfl⟩ := m₀.exists_ofFn
  obtain ⟨g, rfl⟩ := m₁.exists_ofFn
  have hrow : ∀ j, (if bit b j then g j else f j) + scale (f j - g j + a) (bit b j)
      = f j + scale a (bit b j) := by
    intro j
    cases bit b j with
    | false => simp [scale]
    | true =>
      simp only [scale, if_true]
      ring
  rw [constant_eq_ofFn, choose_ofFn, sub_ofFn, add_ofFn, addWhere_ofFn, compose_ofFn, compose_ofFn]
  simp only [hrow]
  exact compose_addWhere f a b

end Rectangle

/-- **Bits compose back in every ring.**  What the bits of an element stand for adds up to the
element, in the ring and in its machine words.  As many bits as an element has give an element
without a fault: the integer with these bits reduced by the order, which has exactly these bits
unless the ring is a prime field.  The rows of two rectangles that the bits of a factor select,
corrected where a bit is set, add up to the first rectangle's sum and the product. -/
theorem bits_compose (r : RingName) :
    (∀ x : r.Carrier,
      sum ((range (bits r.Carrier)).map fun j => basis j * scale 1 (bit x j)) = x ∧
      ofBits ((range (bits r.Carrier)).map (bit x)) = x ∧
      ((range (bits r.Carrier)).mapM (r.bit? (toNat x))).bind r.ofBits? = some (toNat x)) ∧
    (∀ bs : List Bool, bs.length = bits r.Carrier →
      r.ofBits? bs = some (toNat (ofBits bs : r.Carrier)) ∧
      toNat (ofBits bs : r.Carrier) < r.order ∧
      toNat (ofBits bs : r.Carrier) = (∑ j : Fin bs.length, bs[j].toNat * 2 ^ j.val) % r.order ∧
      (r ≠ .mersenne61 → r ≠ .mersenne127 →
        ∀ (j : Nat) (_ : j < bs.length), bit (ofBits bs : r.Carrier) j = bs[j])) ∧
    ∀ (m₀ m₁ : Rectangle r.Carrier r.Carrier) (a b : r.Carrier),
      ((m₀.choose m₁ b).addWhere b ((m₀.sub m₁).add (.constant a))).compose = m₀.compose + a * b ∧
      (do
        let difference ← Rectangle.zipRows? (fun _ => WordRing.sub?) m₀ m₁
        let correction ← Rectangle.zipRows? (fun _ => WordRing.add?) difference (.constant a)
        let rows ← (m₀.choose m₁ b).addWhere? b correction
        rows.weigh?) = some (m₀.compose + a * b) := by
  refine ⟨fun x => ⟨?_, RingName.ofBits_bits x, ?_⟩, fun bs hbs => ?_, fun m₀ m₁ a b => ?_⟩
  · have hterm : ∀ j, (basis j * scale 1 (bit x j) : r.Carrier) = scale (basis j) (bit x j) := by
      intro j
      cases bit x j <;> simp [scale]
    simp only [hterm]
    exact LawfulShareRing.sum_bits x
  · rw [RingName.mapM_bit?, Option.bind_some, RingName.ofBits?_eq (by simp), RingName.ofBits_bits]
  · refine ⟨RingName.ofBits?_eq hbs.le, RingName.toNat_lt_order _, ?_, fun h61 h127 j hj => ?_⟩
    · rw [RingName.toNat_ofBits hbs.le, bitSum, Finset.sum_range]
      simp
    · have horder : r.order = 2 ^ bits r.Carrier := by
        cases r with
        | mersenne61 => exact absurd rfl h61
        | mersenne127 => exact absurd rfl h127
        | gf128 | gf2 | word64 | word128 => rfl
      exact RingName.bit_ofBits horder hbs.le hj
  · refine ⟨Rectangle.compose_choose_addWhere m₀ m₁ a b, ?_⟩
    simp only [Rectangle.zipRows?_sub, Rectangle.zipRows?_add, Rectangle.addWhere?_eq,
      Option.bind_eq_bind, Option.bind_some, Rectangle.weigh?_eq le_rfl,
      Rectangle.compose_choose_addWhere]

/-- In a prime field all bits set give the modulus and so zero; in a ring of words they are kept. -/
theorem bits_compose_ones :
    (replicate 61 true).length = bits RingName.mersenne61.Carrier ∧
    toNat (ofBits (replicate 61 true) : RingName.mersenne61.Carrier) = 0 ∧
    (RingName.word64 ≠ .mersenne61 ∧ RingName.word64 ≠ .mersenne127) ∧
    (replicate 64 true).length = bits RingName.word64.Carrier ∧
    bit (ofBits (replicate 64 true) : RingName.word64.Carrier) 63 = true := by
  have h61 := (bits_compose .mersenne61).2.1 (replicate 61 true) (by decide)
  have h64 := (bits_compose .word64).2.1 (replicate 64 true) (by decide)
  refine ⟨by decide, h61.2.2.1.trans (by decide), by decide, by decide, ?_⟩
  exact h64.2.2.2 (by decide) (by decide) 63 (by decide)

end Beaver
