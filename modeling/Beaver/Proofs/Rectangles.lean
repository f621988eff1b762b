import Mathlib
import Beaver.Proofs.Ring.Laws
import Beaver.Rectangle

/-!
# Rectangles by row

A rectangle is known by its rows `f j`, one for each bit (`Rectangle.ofFn`).  All operations
work row by row, and the weighted sum of the rows that a factor selects, each times that
factor's bit, is a product (`Rectangle.compose_addWhere`).
-/

namespace Beaver.Rectangle

open ShareRing

variable {α β : Type} [ShareRing α] [ShareRing β]

/-- The rectangle with the given rows. -/
def ofFn (f : Nat → β) : Rectangle α β := ⟨.ofFn fun j => f j⟩

omit [ShareRing β] in
theorem toList_ofFn (f : Nat → β) :
    (ofFn f : Rectangle α β).rows.toList = (List.range (bits α)).map f := by
  refine List.ext_getElem (by simp [ofFn]) fun j _ _ => ?_
  simp [ofFn]

omit [ShareRing β] in
theorem ofRows_map_range (f : Nat → β) :
    ofRows ((List.range (bits α)).map f) = .ok (ofFn f : Rectangle α β) := by
  have hsize : ((List.range (bits α)).map f).toArray.size = bits α := by simp
  rw [ofRows, dif_pos hsize]
  congr 2
  apply Vector.ext
  intro j hj
  simp

theorem ofBlocks_map_range (f : Nat → Block) :
    ofBlocks ((List.range (bits α)).map f) = .ok (ofFn fun j => ofBlock (f j) : Rectangle α β) := by
  rw [ofBlocks, List.map_map]
  exact ofRows_map_range fun j => ofBlock (f j)

theorem addWhere_ofFn (f g : Nat → β) (choice : α) :
    (ofFn f : Rectangle α β).addWhere choice (ofFn g)
      = ofFn fun j => f j + scale (g j) (bit choice j) := by
  simp [addWhere, ofFn]

theorem add_ofFn (f g : Nat → β) :
    (ofFn f : Rectangle α β).add (ofFn g) = ofFn fun j => f j + g j := by
  rw [add, ofFn, ofFn, ofFn]
  congr 1
  apply Vector.ext
  intro j hj
  simp

theorem sub_ofFn (f g : Nat → β) :
    (ofFn f : Rectangle α β).sub (ofFn g) = ofFn fun j => f j - g j := by
  rw [sub, ofFn, ofFn, ofFn]
  congr 1
  apply Vector.ext
  intro j hj
  simp

theorem compose_ofFn (f : Nat → β) :
    (ofFn f : Rectangle α β).compose = total (bits α) fun j => basis j * f j := by
  rw [compose, toList_ofFn, total]
  congr 1
  refine List.ext_getElem (by simp) fun j _ _ => ?_
  simp

/-- Rectangles are sent as the lists of their rows. -/
theorem carries_wire [LawfulShareRing β] (hbits : bits α < 2 ^ 64) (f : Nat → β) :
    (wire α β).Carries (ofFn f : Rectangle α β) := by
  intro rest
  have hrows : (Wire.element β).list.Carries ((List.range (bits α)).map f) :=
    .list (fun x _ => Wire.carries_element x) (by simpa using hbits)
  simp only [wire, toList_ofFn]
  rw [hrows]
  simp only [bind, Except.bind, ofRows_map_range]

/-- **Adding the same factor wherever a bit is set** adds the product. -/
theorem compose_addWhere [LawfulShareRing α] (f : Nat → α) (a b : α) :
    total (bits α) (fun j => basis j * (f j + scale a (bit b j)))
      = total (bits α) (fun j => basis j * f j) + a * b := by
  have hbits : total (bits α) (fun j => scale (basis j) (bit b j)) = b := LawfulShareRing.sum_bits b
  have hterm : ∀ j, basis j * (f j + scale a (bit b j))
      = basis j * f j + a * scale (basis j) (bit b j) := by
    intro j
    cases bit b j with
    | false => simp [scale]
    | true =>
      simp only [scale, if_true]
      ring
  simp only [hterm]
  rw [total_add, total_mul_left, hbits]

end Beaver.Rectangle
