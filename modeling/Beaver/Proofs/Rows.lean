import Mathlib
import Beaver.Proofs.Ring.Laws
import Beaver.Row

/-!
# Rows by position

A row of length `n` is known by its elements `f k` for `k < n` (`Row.ofFn`).  On rows of one
length every operation works position by position, so an identity of rows is an identity
of ring elements.  Rows of one length are packed to the same bytes only if they are equal
(`Row.packed_injective`).
-/

namespace Beaver

open List
open ShareRing

/-- Element `k` of what the next blocks of a stream stand for. -/
def Keystream.element (α : Type) [ShareRing α] (s : Keystream) (k : Nat) : α :=
  ofBlock (Aes.encrypt s.generator.schedule (Block.ofNat (s.generator.counter + k)))

namespace Row

variable {α : Type} {n : Nat} {f g : Nat → α}

/-- The row with the given elements. -/
def ofFn (n : Nat) (f : Nat → α) : Row α := ⟨(range n).map f⟩

@[simp]
theorem length_ofFn (n : Nat) (f : Nat → α) : (ofFn n f).values.length = n := by
  simp [ofFn]

theorem ofFn_congr (h : ∀ k < n, f k = g k) : ofFn n f = ofFn n g :=
  congrArg mk (map_congr_left fun k hk => h k (mem_range.mp hk))

theorem ofFn_inj : ofFn n f = ofFn n g ↔ ∀ k < n, f k = g k := by
  simp [ofFn]

@[simp]
theorem update_ofFn (op : α → α → α) (n : Nat) (f g : Nat → α) :
    update op (ofFn n f) (ofFn n g) = ofFn n fun k => op (f k) (g k) := by
  simp [update, ofFn, zipWith_map, zipWith_self]

variable [ShareRing α]

/-- Element `k` of a row, zero beyond its end. -/
def entry (a : Row α) (k : Nat) : α := (a.values[k]?).getD 0

/-- Every row is known by its elements. -/
theorem ofFn_entry {a : Row α} (h : a.values.length = n) : ofFn n a.entry = a := by
  cases a with
  | mk values =>
    subst h
    refine congrArg mk (ext_getElem (by simp) fun k hk _ => ?_)
    have hk : k < values.length := by simpa using hk
    simp [entry, getElem?_eq_getElem hk]

theorem map_range_entry (xs : List α) : (range xs.length).map (entry ⟨xs⟩) = xs :=
  congrArg values (ofFn_entry rfl)

@[simp]
theorem add_ofFn (n : Nat) (f g : Nat → α) : (ofFn n f).add (ofFn n g) = ofFn n fun k => f k + g k :=
  update_ofFn _ n f g

@[simp]
theorem sub_ofFn (n : Nat) (f g : Nat → α) : (ofFn n f).sub (ofFn n g) = ofFn n fun k => f k - g k :=
  update_ofFn _ n f g

@[simp]
theorem addIf_ofFn (c : Bool) (n : Nat) (f g : Nat → α) :
    addIf c (ofFn n f) (ofFn n g) = ofFn n fun k => f k + scale (g k) c :=
  update_ofFn _ n f g

@[simp]
theorem addMultiple_ofFn (c : α) (n : Nat) (f g : Nat → α) :
    addMultiple c (ofFn n f) (ofFn n g) = ofFn n fun k => f k + c * g k :=
  update_ofFn _ n f g

@[simp]
theorem plus_ofFn (n : Nat) (f g : Nat → α) :
    (ofFn n f).plus (ofFn n g) = ofFn n fun k => f k + g k := by
  simp [plus, ofFn, zipWith_map, zipWith_self]

@[simp]
theorem minus_ofFn (n : Nat) (f g : Nat → α) :
    (ofFn n f).minus (ofFn n g) = ofFn n fun k => f k - g k := by
  simp [minus, ofFn, zipWith_map, zipWith_self]

theorem zeros_eq_ofFn (n : Nat) : (zeros n : Row α) = ofFn n fun _ => 0 := by
  simp [zeros, ofFn]

/-- The elements that a stream gives next, and the stream after them. -/
theorem random_eq_ofFn (n : Nat) (s : Keystream) :
    (random n s : Row α × Keystream) = (ofFn n (s.element α), (s.blocks n).2) := by
  simp only [random, Keystream.blocks, CounterCipher.blocks, map_map]
  rfl

/-- Random elements that memory has room for. -/
theorem random?_eq_ofFn (hroom : n * bytes α < memoryLimit) (s : Keystream) :
    (random? n s : Option (Row α × Keystream)) = some (ofFn n (s.element α), (s.blocks n).2) := by
  rw [random?, room?, if_pos hroom, Option.map_some, random_eq_ofFn]

section Lawful

variable [LawfulShareRing α]

/-- Rows are sent if their elements are. -/
theorem carries_wire {a : Row α} (h : a.values.length < 2 ^ 64) : (Row.wire α).Carries a :=
  .map (.list (fun x _ => Wire.carries_element x) h) rfl

/-- Adding up multiples of rows. -/
theorem foldl_addMultiple {β : Type} (m n : Nat) (c : Nat → α) (item : Nat → β) (row : β → Row α)
    {g : Nat → Nat → α} (hrow : ∀ j < m, row (item j) = ofFn n (g j)) :
    ((range m).map item).zipIdx.foldl (fun acc q => addMultiple (c q.2) acc (row q.1)) (zeros n)
      = ofFn n fun k => total m fun j => c j * g j k := by
  induction m with
  | zero => exact zeros_eq_ofFn n
  | succ m ih =>
    rw [range_succ, map_append, zipIdx_append, foldl_append,
      ih fun j hj => hrow j (by omega)]
    simp only [map_singleton, length_map, length_range, Nat.zero_add,
      zipIdx_singleton, foldl_cons, foldl_nil, hrow m (by omega), addMultiple_ofFn]
    refine ofFn_congr fun k _ => ?_
    rw [total_eq_sum, total_eq_sum, range_succ, map_append, sum_append]
    simp

theorem encode_injective : Function.Injective (encode : α → Bytes) := by
  intro a b h
  have hread : (Wire.element α).read (encode a) = (Wire.element α).read (encode b) := by rw [h]
  have ha : (Wire.element α).read (encode a) = .ok a := (Wire.carries_element a).read_encode
  have hb : (Wire.element α).read (encode b) = .ok b := (Wire.carries_element b).read_encode
  exact Except.ok.inj (ha.symm.trans (hread.trans hb))

/-- **Rows of one length are known by their packed bytes.** -/
theorem packed_injective {a b : Row α} (hlength : a.values.length = b.values.length)
    (h : a.packed = b.packed) : a = b := by
  obtain ⟨xs⟩ := a
  obtain ⟨ys⟩ := b
  simp only [packed] at hlength h
  congr 1
  induction xs generalizing ys with
  | nil => exact (length_eq_zero_iff.mp hlength.symm).symm
  | cons x xs ih =>
    obtain ⟨y, ys, rfl⟩ := exists_cons_of_length_eq_add_one hlength.symm
    rw [flatMap_cons, flatMap_cons] at h
    have hx : (encode x).length = (encode y).length := by simp [encode]
    obtain ⟨hxy, hrest⟩ := append_inj h hx
    rw [encode_injective hxy, ih ys (by simpa using hlength) hrest]

end Lawful

end Row

end Beaver
