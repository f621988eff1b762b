import Mathlib
import Beaver.Proofs.CarrylessProduct
import Beaver.Transfer.Extension

/-!
# What the correlation check decides

The check compares sums of carry-less products, which are polynomials over the field
with two elements.  If row `l` of the sender is row `l` of the receiver, plus `delta`
where choice bit `l` is set, plus some error, then everything but the errors cancels:
the check holds exactly if the errors, each times its challenge, add up to zero
(`check_iff`).
-/

namespace Beaver.Transfer

open List
open Polynomial Block

variable {ι : Type}

theorem widePoly_addWide (a b : Block × Block) :
    widePoly (addWide a b) = widePoly a + widePoly b := by
  simp only [widePoly_eq, addWide, poly_xor]
  generalize (X : (ZMod 2)[X]) ^ 64 = s
  ring

theorem widePoly_zero : widePoly (Block.zero, Block.zero) = 0 := by
  rw [widePoly_eq, poly_zero]
  simp

/-- The sum of the products of rows with challenges. -/
theorem widePoly_combineRows (ls : List ι) (row chi : ι → Block) :
    widePoly (combineRows (ls.map row) (ls.map chi))
      = (ls.map fun l => (row l).poly * (chi l).poly).sum := by
  have hfold : ∀ acc : Block × Block, widePoly (((ls.map row).zip (ls.map chi)).foldl
      (fun acc (p : Block × Block) => addWide acc (p.1.clmul p.2)) acc)
      = widePoly acc + (ls.map fun l => (row l).poly * (chi l).poly).sum := by
    induction ls with
    | nil => intro acc; simp
    | cons l ls ih =>
      intro acc
      simp only [map_cons, zip_cons_cons, foldl_cons, sum_cons]
      rw [ih, widePoly_addWide, widePoly_clmul, add_assoc]
  have hsum := hfold (Block.zero, Block.zero)
  rwa [widePoly_zero, zero_add] at hsum

theorem poly_scale (b : Block) (c : Bool) : (b.scale c).poly = if c then b.poly else 0 := by
  cases c with
  | false => exact poly_zero
  | true => rfl

/-- The sum of the challenges whose bit is set. -/
theorem poly_combineChoices (ls : List ι) (choice : ι → Bool) (chi : ι → Block) :
    (combineChoices (ls.map choice) (ls.map chi)).poly
      = (ls.map fun l => if choice l then (chi l).poly else 0).sum := by
  have hfold : ∀ acc : Block, (((ls.map choice).zip (ls.map chi)).foldl
      (fun acc (p : Bool × Block) => acc ^^^ p.2.scale p.1) acc).poly
      = acc.poly + (ls.map fun l => if choice l then (chi l).poly else 0).sum := by
    induction ls with
    | nil => intro acc; simp
    | cons l ls ih =>
      intro acc
      simp only [map_cons, zip_cons_cons, foldl_cons, sum_cons]
      rw [ih, poly_xor, poly_scale, add_assoc]
  have hsum := hfold Block.zero
  rwa [poly_zero, zero_add] at hsum

variable {ls : List ι} {q t e row : ι → Block} {choice : ι → Bool} {delta : Block}

/-- The two sides of the check differ by the errors. -/
theorem widePoly_check (chi : ι → Block)
    (hrow : ∀ l ∈ ls, q l = t l ^^^ delta.scale (choice l) ^^^ (delta &&& e l)) :
    widePoly (addWide (combineRows (ls.map q) (ls.map chi))
        ((combineChoices (ls.map choice) (ls.map chi)).clmul delta))
      = widePoly (combineRows (ls.map t) (ls.map chi))
        + widePoly (combineRows (ls.map fun l => delta &&& e l) (ls.map chi)) := by
  rw [widePoly_addWide, widePoly_clmul, poly_combineChoices, widePoly_combineRows,
    widePoly_combineRows, widePoly_combineRows]
  induction ls with
  | nil => simp
  | cons l ls ih =>
    have htail := ih fun k hk => hrow k (mem_cons_of_mem l hk)
    simp only [map_cons, sum_cons]
    rw [hrow l mem_cons_self, poly_xor, poly_xor, poly_scale]
    cases choice l with
    | false =>
      simp only [Bool.false_eq_true, if_false]
      linear_combination htail
    | true =>
      have htwice : delta.poly * (chi l).poly + delta.poly * (chi l).poly = 0 :=
        CharTwo.add_self_eq_zero _
      simp only [if_true]
      linear_combination htail + htwice

/-- **The check holds exactly if the errors add up to zero.** -/
theorem check_iff (chi : ι → Block)
    (hrow : ∀ l ∈ ls, q l = t l ^^^ delta.scale (choice l) ^^^ (delta &&& e l)) :
    addWide (combineRows (ls.map q) (ls.map chi))
        ((combineChoices (ls.map choice) (ls.map chi)).clmul delta)
      = combineRows (ls.map t) (ls.map chi)
    ↔ combineRows (ls.map fun l => delta &&& e l) (ls.map chi) = (.zero, .zero) := by
  have hsides := widePoly_check chi hrow
  constructor
  · intro heq
    rw [heq] at hsides
    apply widePoly_injective
    rw [widePoly_zero]
    exact left_eq_add.mp hsides
  · intro hzero
    rw [hzero, widePoly_zero, add_zero] at hsides
    exact widePoly_injective hsides

/-- Errors that `delta` does not select add up to zero. -/
theorem combineRows_eq_zero (chi : ι → Block) (h : ∀ l ∈ ls, row l = .zero) :
    combineRows (ls.map row) (ls.map chi) = (.zero, .zero) := by
  apply widePoly_injective
  rw [widePoly_combineRows, widePoly_zero]
  apply sum_eq_zero
  intro p hp
  obtain ⟨l, hl, rfl⟩ := mem_map.mp hp
  rw [h l hl, poly_zero, zero_mul]

/-- **There are no divisors of zero**: an error in one row only, with a challenge that is
not zero, does not add up to zero. -/
theorem combineRows_ne_zero {chi : ι → Block} {k : ι} (hls : ls.Nodup) (hk : k ∈ ls)
    (hothers : ∀ l ∈ ls, l ≠ k → row l = .zero) (hrow : row k ≠ .zero) (hchi : chi k ≠ .zero) :
    combineRows (ls.map row) (ls.map chi) ≠ (.zero, .zero) := by
  have hne : ∀ {b : Block}, b ≠ .zero → b.poly ≠ 0 := by
    intro b hb hpoly
    exact hb (poly_injective (hpoly.trans poly_zero.symm))
  have hsum : (ls.map fun l => (row l).poly * (chi l).poly).sum = (row k).poly * (chi k).poly := by
    induction ls with
    | nil => cases hk
    | cons l ls ih =>
      obtain ⟨hl, hls⟩ := nodup_cons.mp hls
      have htail := fun m hm => hothers m (mem_cons_of_mem l hm)
      rw [map_cons, sum_cons]
      rcases mem_cons.mp hk with rfl | hk
      · have hrest : (ls.map fun l => (row l).poly * (chi l).poly).sum = 0 := by
          apply sum_eq_zero
          intro p hp
          obtain ⟨m, hm, rfl⟩ := mem_map.mp hp
          rw [htail m hm (fun hmk => hl (hmk ▸ hm)), poly_zero, zero_mul]
        rw [hrest, add_zero]
      · have hlk : l ≠ k := fun hlk => hl (hlk ▸ hk)
        rw [hothers l mem_cons_self hlk, poly_zero, zero_mul, zero_add]
        exact ih hls hk htail
  intro hzero
  have hwide := congrArg widePoly hzero
  rw [widePoly_combineRows, widePoly_zero, hsum] at hwide
  exact mul_ne_zero (hne hrow) (hne hchi) hwide

end Beaver.Transfer
