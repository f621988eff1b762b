import Mathlib
import Beaver.Batches

/-!
# Lists in batches

The batches of a list follow each other in the list.  Batch `b` of size `n` is what is left
after `n * b` items, cut to `n` (`batches_eq_map_range`).
-/

namespace Beaver

open List

variable {α β : Type} {n : Nat}

@[simp]
theorem batches_nil (n : Nat) : batches n ([] : List α) = [] := by
  rw [batches, dif_pos (.inl rfl)]

theorem batches_of_ne_nil {xs : List α} (hn : 0 < n) (hxs : xs ≠ []) :
    batches n xs = xs.take n :: batches n (xs.drop n) := by
  rw [batches, dif_neg]
  simp only [not_or]
  exact ⟨hxs, Nat.ne_of_gt hn⟩

/-- The batches of a list, from the front: the induction on its length that all facts about
them use. -/
theorem batches_induction {P : List α → List (List α) → Prop} (hn : 0 < n) (hnil : P [] [])
    (hcons : ∀ xs, xs ≠ [] → P (xs.drop n) (batches n (xs.drop n)) →
      P xs (xs.take n :: batches n (xs.drop n))) (xs : List α) : P xs (batches n xs) := by
  induction hlength : xs.length using Nat.strong_induction_on generalizing xs with
  | _ m ih =>
    by_cases hxs : xs = []
    · subst hxs
      rw [batches_nil]
      exact hnil
    · rw [batches_of_ne_nil hn hxs]
      have hpos : 0 < xs.length := length_pos_iff.mpr hxs
      refine hcons xs hxs (ih (xs.drop n).length ?_ (xs.drop n) rfl)
      rw [length_drop]
      omega

theorem flatten_batches (hn : 0 < n) (xs : List α) : (batches n xs).flatten = xs := by
  refine batches_induction (P := fun xs bs => bs.flatten = xs) hn rfl ?_ xs
  intro xs _ ih
  rw [flatten_cons, ih, take_append_drop]

theorem length_le_of_mem_batches (hn : 0 < n) (xs : List α) :
    ∀ part ∈ batches n xs, part.length ≤ n := by
  refine batches_induction (P := fun _ bs => ∀ part ∈ bs, part.length ≤ n) hn (by simp) ?_ xs
  intro xs _ ih part hpart
  rcases mem_cons.mp hpart with rfl | hpart
  · exact length_take_le n xs
  · exact ih part hpart

theorem batches_map (hn : 0 < n) (f : α → β) (xs : List α) :
    batches n (xs.map f) = (batches n xs).map (·.map f) := by
  refine batches_induction (P := fun xs bs => batches n (xs.map f) = bs.map (·.map f)) hn
    (by simp) ?_ xs
  intro xs hxs ih
  rw [batches_of_ne_nil hn (by simpa using hxs), ← map_drop, ih, ← map_take, map_cons]

/-- A list that fits in one batch is one. -/
theorem batches_of_length_le {xs : List α} (hxs : xs ≠ []) (h : xs.length ≤ n) :
    batches n xs = [xs] := by
  have hn : 0 < n := Nat.lt_of_lt_of_le (length_pos_iff.mpr hxs) h
  rw [batches_of_ne_nil hn hxs, take_of_length_le h, drop_of_length_le h, batches_nil]

/-- **The batches of a list**, by their number. -/
theorem batches_eq_map_range (hn : 0 < n) (xs : List α) :
    batches n xs
      = (range ((xs.length + n - 1) / n)).map fun b => (xs.drop (n * b)).take n := by
  refine batches_induction (P := fun xs bs => bs
    = (range ((xs.length + n - 1) / n)).map fun b => (xs.drop (n * b)).take n) hn ?_ ?_ xs
  · rw [length_nil, Nat.zero_add, Nat.div_eq_of_lt (by omega)]
    rfl
  · intro xs hxs ih
    have hpos : 0 < xs.length := length_pos_iff.mpr hxs
    have hcount : (xs.length + n - 1) / n = ((xs.drop n).length + n - 1) / n + 1 := by
      rw [length_drop, ← Nat.add_div_right _ hn]
      by_cases hle : n ≤ xs.length
      · congr 1
        omega
      · rw [show xs.length - n = 0 by omega, Nat.div_eq_of_lt_le (k := 1) (by omega) (by omega),
          Nat.div_eq_of_lt_le (k := 1) (by omega) (by omega)]
    rw [hcount, range_succ_eq_map, map_cons, map_map, ih]
    congr 1
    refine map_congr_left fun b _ => ?_
    rw [drop_drop, Function.comp, Nat.mul_succ, Nat.add_comm]

/-- The lengths of the batches of `m` items. -/
def batchLengths (n m : Nat) : List Nat :=
  (range ((m + n - 1) / n)).map fun b => min n (m - n * b)

theorem map_length_batches (hn : 0 < n) (xs : List α) :
    (batches n xs).map length = batchLengths n xs.length := by
  rw [batches_eq_map_range hn, map_map, batchLengths]
  refine map_congr_left fun b _ => ?_
  rw [Function.comp_apply, length_take, length_drop]

/-- Full batches before a later one. -/
theorem sum_length_take {f : Nat → List α} {count k : Nat} (hk : k ≤ count)
    (hfull : ∀ b < k, (f b).length = n) :
    ((((range count).map f).take k).map length).sum = n * k := by
  rw [← map_take, take_range, Nat.min_eq_left hk, map_map]
  calc ((range k).map fun b => (f b).length).sum
      = ((range k).map fun _ => n).sum := by
        rw [map_congr_left fun b hb => hfull b (mem_range.mp hb)]
    _ = n * k := by simp [Nat.mul_comm]

/-- A part of a list, by its positions. -/
theorem take_drop_map_range (x : Nat → α) (m start size : Nat) :
    (((range m).map x).drop start).take size
      = (range (min size (m - start))).map fun j => x (start + j) := by
  apply ext_getElem
  · simp
  · intro j _ _
    simp

/-- The batches of a list, by the positions of their items. -/
theorem batches_range (hn : 0 < n) (m : Nat) (x : Nat → α) :
    batches n ((range m).map x) = (range ((m + n - 1) / n)).map fun b =>
      (range (min n (m - n * b))).map fun j => x (n * b + j) := by
  rw [batches_eq_map_range hn, length_map, length_range]
  exact map_congr_left fun b _ => take_drop_map_range x m (n * b) n

/-- The batches of a list that they fill. -/
theorem batches_map_range (hn : 0 < n) (m : Nat) (x : Nat → α) :
    batches n ((range (m * n)).map x)
      = (range m).map fun b => (range n).map fun j => x (n * b + j) := by
  have hcount : (m * n + n - 1) / n = m := by
    rw [Nat.add_sub_assoc hn, Nat.mul_comm, Nat.mul_add_div hn, Nat.div_eq_of_lt (by omega),
      Nat.add_zero]
  rw [batches_range hn, hcount]
  refine map_congr_left fun b hb => ?_
  have hle : n * b + n ≤ m * n := by
    calc n * b + n = n * (b + 1) := by ring
      _ ≤ n * m := Nat.mul_le_mul_left n (mem_range.mp hb)
      _ = m * n := Nat.mul_comm n m
  rw [Nat.min_eq_left (by omega)]

/-- Where item `j` of batch `b` is. -/
theorem div_mod_batch (b : Nat) {j : Nat} (hj : j < n) : (n * b + j) / n = b ∧ (n * b + j) % n = j := by
  rw [Nat.mul_add_div (by omega), Nat.div_eq_of_lt hj, Nat.mul_add_mod, Nat.mod_eq_of_lt hj]
  exact ⟨Nat.add_zero b, rfl⟩

/-- What follows each other in groups of one size, by position. -/
theorem flatMap_map_range (m : Nat) (x : Nat → Nat → α) :
    ((range m).flatMap fun b => (range n).map (x b))
      = (range (m * n)).map fun k => x (k / n) (k % n) := by
  induction m with
  | zero => simp
  | succ m ih =>
    rw [range_succ, flatMap_append, ih, Nat.succ_mul, range_add, map_append,
      map_map, flatMap_singleton]
    congr 1
    refine map_congr_left fun j hj => ?_
    obtain ⟨hdiv, hmod⟩ := div_mod_batch m (mem_range.mp hj)
    rw [Function.comp_apply, Nat.mul_comm, hdiv, hmod]

end Beaver
