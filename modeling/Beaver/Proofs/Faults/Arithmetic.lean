import Mathlib
import Beaver.Proofs.Loops
import Beaver.Proofs.Rectangles
import Beaver.Proofs.Ring.WordArithmetic
import Beaver.Row
import Beaver.Share

/-!
# Guarded arithmetic

The operations on elements, rows, rectangles and shares once more, each in machine words:
a word that overflows, a shift past the width and a result that represents no element
are missing results here.  On elements, which are canonical, nothing is missing, and the
results are those of the plain operations.
-/

namespace Beaver

open ShareRing

/-- A number that fits in a machine word. -/
def inWord? (n : Nat) : Option Nat :=
  if n < 2 ^ 64 then some n else none

theorem inWord?_eq {n : Nat} (h : n < 2 ^ 64) : inWord? n = some n :=
  if_pos h

namespace WordRing

variable {α : Type} [ShareRing α] [WordRing α]

/-- The sum, found in words. -/
def add? (a b : α) : Option α := ((ring α).add? (toNat a) (toNat b)).bind ofNat?

/-- The difference, found in words. -/
def sub? (a b : α) : Option α := ((ring α).sub? (toNat a) (toNat b)).bind ofNat?

/-- The negative, found in words. -/
def neg? (a : α) : Option α := ((ring α).neg? (toNat a)).bind ofNat?

/-- The product, found in words. -/
def mul? (a b : α) : Option α := ((ring α).mul? (toNat a) (toNat b)).bind ofNat?

/-- A bit of the word. -/
def bit? (a : α) (i : Nat) : Option Bool := (ring α).bit? (toNat a) i

/-- What a bit stands for, as a word. -/
def weight? (i : Nat) : Option α := ((ring α).basis? i).bind ofNat?

/-- The sum of a list, added up in words. -/
def sum? (xs : List α) : Option α := xs.foldlM add? 0

variable [LawfulShareRing α]

@[simp]
theorem add?_eq (a b : α) : add? a b = some (a + b) := by
  rw [add?, add_eq, Option.bind_some, LawfulShareRing.ofNat?_toNat]

@[simp]
theorem neg?_eq (a : α) : neg? a = some (-a) := by
  rw [neg?, neg_eq, Option.bind_some, LawfulShareRing.ofNat?_toNat]

@[simp]
theorem sub?_eq (a b : α) : sub? a b = some (a - b) := by
  rw [sub?, RingName.sub?, neg_eq]
  simp only [Option.bind_eq_bind, Option.bind_some, add_eq]
  rw [LawfulShareRing.ofNat?_toNat, LawfulShareRing.sub_eq]

@[simp]
theorem mul?_eq (a b : α) : mul? a b = some (a * b) := by
  rw [mul?, mul_eq, Option.bind_some, LawfulShareRing.ofNat?_toNat]

omit [LawfulShareRing α] in
theorem bit?_eq (a : α) {i : Nat} (h : i < bits α) : bit? a i = some (bit a i) :=
  bit_eq a h

theorem weight?_eq {i : Nat} (h : i < bits α) : (weight? i : Option α) = some (basis i) := by
  rw [weight?, basis_eq h, Option.bind_some, LawfulShareRing.ofNat?_toNat]

@[simp]
theorem sum?_eq (xs : List α) : sum? xs = some (sum xs) :=
  foldlM_eq_some fun x _ acc => add?_eq acc x

end WordRing

/-- The inverse, found in words; zero has none. -/
def WordField.invert? {α : Type} [ShareField α] [WordField α] (a : α) : Option (Option α) := do
  match ← (WordRing.ring α).inverse? (toNat a) with
  | none => some none
  | some x => (ofNat? x).map some

variable {α : Type}

@[simp]
theorem WordField.invert?_eq [ShareField α] [WordField α] [LawfulShareRing α] (a : α) :
    invert? a = some (ShareField.inverse? a) := by
  rw [invert?, inverse_eq]
  cases ShareField.inverse? a with
  | none => rfl
  | some b => simp [LawfulShareRing.ofNat?_toNat]

/-- A square root, found in words, if there is one. -/
def WordRootField.root? {α : Type} [RootField α] [WordRootField α] (a : α) :
    Option (Option α) := do
  match ← (WordRing.ring α).sqrt? (toNat a) with
  | none => some none
  | some x => (ofNat? x).map some

@[simp]
theorem WordRootField.root?_eq [RootField α] [WordRootField α] [LawfulShareRing α] (a : α) :
    root? a = some (RootField.sqrt? a) := by
  rw [root?, sqrt_eq]
  cases RootField.sqrt? a with
  | none => rfl
  | some b => simp [LawfulShareRing.ofNat?_toNat]

namespace Row

variable {α : Type}

/-- Changes the elements that have a partner by an operation that may have no result. -/
def update? (f : α → α → Option α) (a b : Row α) : Option (Row α) := do
  let front ← (a.values.zip b.values).mapM fun p => f p.1 p.2
  some ⟨front ++ a.values.drop b.values.length⟩

/-- Combines the elements on the common front by an operation that may have no result. -/
def front? (f : α → α → Option α) (a b : Row α) : Option (Row α) :=
  ((a.values.zip b.values).mapM fun p => f p.1 p.2).map mk

variable {f : α → α → Option α} {g : α → α → α}

theorem update?_eq (h : ∀ x y, f x y = some (g x y)) (a b : Row α) :
    update? f a b = some (update g a b) := by
  rw [update?, mapM_zip_eq_some h]
  rfl

theorem front?_eq (h : ∀ x y, f x y = some (g x y)) (a b : Row α) :
    front? f a b = some ⟨List.zipWith g a.values b.values⟩ := by
  rw [front?, mapM_zip_eq_some h]
  rfl

variable [ShareRing α] [WordRing α]

/-- Adds the other row if the bit is set. -/
def addIf? (c : Bool) (a b : Row α) : Option (Row α) :=
  update? (fun x y => WordRing.add? x (scale y c)) a b

/-- Adds a multiple of the other row. -/
def addMultiple? (c : α) (a b : Row α) : Option (Row α) :=
  update? (fun x y => do WordRing.add? x (← WordRing.mul? c y)) a b

variable [LawfulShareRing α]

@[simp]
theorem addIf?_eq (c : Bool) (a b : Row α) : addIf? c a b = some (addIf c a b) :=
  update?_eq (fun x y => WordRing.add?_eq x (scale y c)) a b

@[simp]
theorem addMultiple?_eq (c : α) (a b : Row α) : addMultiple? c a b = some (addMultiple c a b) :=
  update?_eq (fun x y => by simp) a b

@[simp]
theorem update?_add (a b : Row α) : update? WordRing.add? a b = some (a.add b) :=
  update?_eq WordRing.add?_eq a b

@[simp]
theorem update?_sub (a b : Row α) : update? WordRing.sub? a b = some (a.sub b) :=
  update?_eq WordRing.sub?_eq a b

@[simp]
theorem front?_add (a b : Row α) : front? WordRing.add? a b = some (a.plus b) :=
  front?_eq WordRing.add?_eq a b

@[simp]
theorem front?_sub (a b : Row α) : front? WordRing.sub? a b = some (a.minus b) :=
  front?_eq WordRing.sub?_eq a b

end Row

namespace Rectangle

variable {α β : Type} [ShareRing α] [ShareRing β]

/-- Combines two rectangles row by row, by operations that may have no result. -/
def zipRows? (f : Nat → β → β → Option β) (r s : Rectangle α β) : Option (Rectangle α β) := do
  let rows ← (r.rows.toList.zip s.rows.toList).zipIdx.mapM fun p => f p.2 p.1.1 p.1.2
  (ofRows rows).toOption

/-- Every rectangle is known by its rows. -/
theorem exists_ofFn (r : Rectangle α β) : ∃ f, r = ofFn f := by
  refine ⟨fun j => (r.rows.toList[j]?).getD 0, ?_⟩
  obtain ⟨rows⟩ := r
  refine congrArg mk (Vector.ext fun j hj => ?_)
  simp

omit [ShareRing β] in
theorem zipRows?_ofFn {f : Nat → β → β → Option β} {g : Nat → β → β → β}
    (h : ∀ j < bits α, ∀ x y, f j x y = some (g j x y)) (x y : Nat → β) :
    zipRows? f (ofFn x : Rectangle α β) (ofFn y) = some (ofFn fun j => g j (x j) (y j)) := by
  have hrows : (((List.range (bits α)).map x).zip ((List.range (bits α)).map y)).zipIdx
      = (List.range (bits α)).map fun j => ((x j, y j), j) := by
    refine List.ext_getElem (by simp) fun j _ _ => ?_
    simp
  rw [zipRows?, toList_ofFn, toList_ofFn, hrows, List.mapM_map]
  have hsteps : (List.range (bits α)).mapM ((fun p => f p.2 p.1.1 p.1.2) ∘ fun j => ((x j, y j), j))
      = some ((List.range (bits α)).map fun j => g j (x j) (y j)) :=
    mapM_eq_some fun j hj => h j (List.mem_range.mp hj) (x j) (y j)
  rw [hsteps]
  simp only [Option.bind_eq_bind, Option.bind_some, ofRows_map_range]
  rfl

variable [WordRing β]

/-- The sum of the rows with the weights of their bits, found in words. -/
def weigh? (r : Rectangle α β) : Option β :=
  r.rows.toList.zipIdx.foldlM (fun acc p => do
    WordRing.add? acc (← WordRing.mul? (← WordRing.weight? p.2) p.1)) 0

/-- Adds row `j` of the other rectangle wherever bit `j` is set. -/
def addWhere? [WordRing α] (r : Rectangle α β) (choice : α) (s : Rectangle α β) :
    Option (Rectangle α β) :=
  zipRows? (fun j x y => do WordRing.add? x (scale y (← WordRing.bit? choice j))) r s

variable [LawfulShareRing β]

theorem weigh?_eq (h : bits α ≤ bits β) (r : Rectangle α β) : r.weigh? = some r.compose := by
  have hstep : ∀ p ∈ r.rows.toList.zipIdx, ∀ acc : β, (do
      WordRing.add? acc (← WordRing.mul? (← WordRing.weight? p.2) p.1))
        = some (acc + basis p.2 * p.1) := by
    intro p hp acc
    have hlt := List.snd_lt_of_mem_zipIdx hp
    rw [Vector.length_toList] at hlt
    rw [WordRing.weight?_eq (by omega)]
    simp
  rw [weigh?, foldlM_eq_some hstep, compose, sum, List.foldl_map]

@[simp]
theorem addWhere?_eq [WordRing α] (r : Rectangle α β) (choice : α) (s : Rectangle α β) :
    r.addWhere? choice s = some (r.addWhere choice s) := by
  obtain ⟨x, rfl⟩ := r.exists_ofFn
  obtain ⟨y, rfl⟩ := s.exists_ofFn
  rw [addWhere_ofFn]
  have hrow : ∀ j < bits α, ∀ x y : β, (do
      WordRing.add? x (scale y (← WordRing.bit? choice j)))
        = some (x + scale y (bit choice j)) := by
    intro j hj x y
    simp [WordRing.bit?_eq choice hj]
  exact zipRows?_ofFn hrow x y

@[simp]
theorem zipRows?_add (r s : Rectangle α β) :
    zipRows? (fun _ => WordRing.add?) r s = some (r.add s) := by
  obtain ⟨x, rfl⟩ := r.exists_ofFn
  obtain ⟨y, rfl⟩ := s.exists_ofFn
  rw [add_ofFn]
  exact zipRows?_ofFn (fun _ _ => WordRing.add?_eq) x y

@[simp]
theorem zipRows?_sub (r s : Rectangle α β) :
    zipRows? (fun _ => WordRing.sub?) r s = some (r.sub s) := by
  obtain ⟨x, rfl⟩ := r.exists_ofFn
  obtain ⟨y, rfl⟩ := s.exists_ofFn
  rw [sub_ofFn]
  exact zipRows?_ofFn (fun _ _ => WordRing.sub?_eq) x y

end Rectangle

namespace Share

variable {τ μ : Type} [ShareRing τ] [ShareRing μ] [WordRing τ] [WordRing μ]

/-- The share of a sum, found in words. -/
def add? (x y : Share τ μ) : Option (Share τ μ) := do
  some ⟨← WordRing.add? x.value y.value, ← WordRing.add? x.tag y.tag⟩

/-- The share of a difference, found in words. -/
def sub? (x y : Share τ μ) : Option (Share τ μ) := do
  some ⟨← WordRing.sub? x.value y.value, ← WordRing.sub? x.tag y.tag⟩

variable [Lift τ μ]

/-- The share of the product with a public constant, found in words. -/
def mulPublic? (x : Share τ μ) (c : τ) : Option (Share τ μ) := do
  some ⟨← WordRing.mul? x.value c, ← WordRing.mul? x.tag (Lift.lift c)⟩

/-- The share of the sum with a public constant, found in words. -/
def addPublic? (x : Share τ μ) (c : τ) (key : μ) (me : Nat) : Option (Share τ μ) := do
  let value ← if me = 0 then WordRing.add? x.value c else some x.value
  some ⟨value, ← WordRing.add? x.tag (← WordRing.mul? key (Lift.lift c))⟩

variable [LawfulShareRing τ] [LawfulShareRing μ]

omit [Lift τ μ] in
@[simp]
theorem add?_eq (x y : Share τ μ) : x.add? y = some (x + y) := by
  rw [add?, WordRing.add?_eq, WordRing.add?_eq]
  rfl

omit [Lift τ μ] in
@[simp]
theorem sub?_eq (x y : Share τ μ) : x.sub? y = some (x - y) := by
  rw [sub?, WordRing.sub?_eq, WordRing.sub?_eq]
  rfl

@[simp]
theorem mulPublic?_eq (x : Share τ μ) (c : τ) : x.mulPublic? c = some (x.mulPublic c) := by
  rw [mulPublic?, WordRing.mul?_eq, WordRing.mul?_eq]
  rfl

@[simp]
theorem addPublic?_eq (x : Share τ μ) (c : τ) (key : μ) (me : Nat) :
    x.addPublic? c key me = some (x.addPublic c key me) := by
  rw [addPublic?, addPublic]
  split <;> simp

end Share

end Beaver
