import Mathlib

/-!
# Loops without a fault

A loop whose steps all have a result has one itself, and it is that of the plain loop.
-/

namespace Beaver

open List

variable {α β γ : Type}
variable {ε : Type} {g : α → β} {xs : List α}

/-- A step that may fail gives a result if its two parts do. -/
theorem bind_eq_ok_iff {α β : Type} {x : Except ε α} {f : α → Except ε β} {b : β} :
    (x >>= f) = .ok b ↔ ∃ a, x = .ok a ∧ f a = .ok b := by
  cases x with
  | error e => simp [bind, Except.bind]
  | ok a => simp [bind, Except.bind]

/-- A loop whose steps all have a result. -/
theorem mapM_eq_some {f : α → Option β} (h : ∀ x ∈ xs, f x = some (g x)) :
    xs.mapM f = some (xs.map g) := by
  induction xs with
  | nil => rfl
  | cons x xs ih =>
    rw [mapM_cons, h x mem_cons_self, ih fun y hy => h y (mem_cons_of_mem x hy)]
    rfl

/-- A loop over two lists side by side. -/
theorem mapM_zip_eq_some {f : α → β → Option γ} {g : α → β → γ} {ys : List β}
    (h : ∀ x y, f x y = some (g x y)) :
    (xs.zip ys).mapM (fun p => f p.1 p.2) = some (zipWith g xs ys) := by
  rw [mapM_eq_some fun p _ => h p.1 p.2, map_zip_eq_zipWith]
  rfl

/-- A loop over the indices of a list. -/
theorem mapM_range_eq_some {f : Nat → Option α} {n : Nat} (hn : xs.length = n)
    (h : ∀ j < n, f j = xs[j]?) : (range n).mapM f = some xs := by
  subst hn
  induction xs generalizing f with
  | nil => rfl
  | cons x xs ih =>
    have hfirst : f 0 = some x := h 0 (Nat.zero_lt_succ _)
    have hrest : (range xs.length).mapM (f ∘ Nat.succ) = some xs :=
      ih fun j hj => h (j + 1) (Nat.succ_lt_succ hj)
    rw [length_cons, range_succ_eq_map, mapM_cons, mapM_map, hfirst, hrest]
    rfl

/-- A loop with an accumulator whose steps all have a result. -/
theorem foldlM_eq_some {f : β → α → Option β} {g : β → α → β} {b : β}
    (h : ∀ x ∈ xs, ∀ c, f c x = some (g c x)) : xs.foldlM f b = some (xs.foldl g b) := by
  induction xs generalizing b with
  | nil => rfl
  | cons x xs ih =>
    rw [foldlM_cons, h x mem_cons_self, foldl_cons]
    exact ih fun y hy => h y (mem_cons_of_mem x hy)

/-- Checks that all succeed give all results. -/
theorem mapM_eq_ok {f : α → Except ε β} (h : ∀ x ∈ xs, f x = .ok (g x)) :
    xs.mapM f = .ok (xs.map g) := by
  induction xs with
  | nil => rfl
  | cons x xs ih =>
    rw [mapM_cons, h x mem_cons_self, ih fun y hy => h y (mem_cons_of_mem x hy)]
    rfl

/-- The first check that fails ends a loop over indices. -/
theorem mapM_range_eq_error {f : Nat → Except ε β} {g : Nat → β} {e : ε} {j n : Nat} (hj : j < n)
    (hok : ∀ k < j, f k = .ok (g k)) (herror : f j = .error e) :
    (range n).mapM f = .error e := by
  have hsplit : range n = range j ++ j :: (range n).drop (j + 1) := by
    calc range n = (range n).take j ++ (range n).drop j :=
          (take_append_drop j _).symm
      _ = range j ++ j :: (range n).drop (j + 1) := by
          rw [take_range, Nat.min_eq_left (Nat.le_of_lt hj),
            drop_eq_getElem_cons (by simpa using hj), getElem_range]
  rw [hsplit, mapM_append, mapM_eq_ok fun k hk => hok k (mem_range.mp hk),
    mapM_cons, herror]
  rfl

end Beaver
