import Mathlib
import Beaver.Proofs.WireRoundTrip
import Beaver.Ring.Basic

/-!
# The laws of the rings

A lawful ring is a commutative ring in which an element is the sum of the powers of two
that its bits stand for, and whose elements can be written and read back.  A ring whose
operations agree with those of a known commutative ring is one itself
(`LawfulShareRing.of_injective`).
-/

namespace Beaver

open List hiding sum
open ShareRing

theorem ShareRing.length_samples {α γ : Type} [ShareRing α] [WordGenerator γ] (n : Nat)
    (s : WordBuffer γ) : (samples n s : List α × WordBuffer γ).1.length = n := by
  induction n generalizing s with
  | zero => rfl
  | succ n ih => simp [samples, ih]

/-- What the protocols rely on in a ring. -/
class LawfulShareRing (α : Type) [ShareRing α] : Prop where
  add_assoc (a b c : α) : a + b + c = a + (b + c)
  add_comm (a b : α) : a + b = b + a
  zero_add (a : α) : 0 + a = a
  neg_add (a : α) : -a + a = 0
  sub_eq (a b : α) : a - b = a + -b
  mul_assoc (a b c : α) : a * b * c = a * (b * c)
  mul_comm (a b : α) : a * b = b * a
  one_mul (a : α) : 1 * a = a
  mul_add (a b c : α) : a * (b + c) = a * b + a * c
  mul_zero (a : α) : a * 0 = 0
  /-- The representing integer is read back. -/
  ofNat?_toNat (a : α) : ofNat? (toNat a) = some a
  /-- The representing integer fits the encoding. -/
  toNat_lt (a : α) : toNat a < 256 ^ bytes α
  /-- An element is the sum of what its bits stand for. -/
  sum_bits (a : α) : sum ((range (bits α)).map fun i => scale (basis i) (bit a i)) = a

section Ring

variable {α : Type} [ShareRing α]

instance (priority := low) commRingOfLawful [h : LawfulShareRing α] : CommRing α where
  add_assoc := h.add_assoc
  zero_add := h.zero_add
  add_zero a := (h.add_comm a 0).trans (h.zero_add a)
  add_comm := h.add_comm
  neg_add_cancel := h.neg_add
  sub_eq_add_neg := h.sub_eq
  mul_assoc := h.mul_assoc
  mul_comm := h.mul_comm
  one_mul := h.one_mul
  mul_one a := (h.mul_comm a 1).trans (h.one_mul a)
  left_distrib := h.mul_add
  right_distrib a b c := by rw [h.mul_comm, h.mul_add, h.mul_comm c a, h.mul_comm c b]
  zero_mul a := (h.mul_comm 0 a).trans (h.mul_zero a)
  mul_zero := h.mul_zero
  nsmul := nsmulRec
  zsmul := zsmulRec

/-- A sum, seen in another ring. -/
theorem ShareRing.map_sum {R : Type} [CommRing R] {f : α → R}
    (hadd : ∀ a b, f (a + b) = f a + f b) (hzero : f 0 = 0) (xs : List α) :
    f (sum xs) = (xs.map f).sum := by
  have hfold : ∀ acc : α, f (xs.foldl (· + ·) acc) = f acc + (xs.map f).sum := by
    induction xs with
    | nil => intro acc; simp
    | cons x xs ih =>
      intro acc
      rw [foldl_cons, ih, hadd, map_cons, sum_cons, add_assoc]
  rw [sum, hfold, hzero, zero_add]

/-- **A ring seen inside a commutative ring is lawful**, if its operations agree there and
its codec and its bits are right. -/
theorem LawfulShareRing.of_injective {R : Type} [CommRing R] {f : α → R}
    (hf : Function.Injective f)
    (hadd : ∀ a b, f (a + b) = f a + f b) (hsub : ∀ a b, f (a - b) = f a - f b)
    (hneg : ∀ a, f (-a) = -f a) (hmul : ∀ a b, f (a * b) = f a * f b)
    (hzero : f 0 = 0) (hone : f 1 = 1) (hread : ∀ a : α, ofNat? (toNat a) = some a)
    (hlt : ∀ a : α, toNat a < 256 ^ bytes α)
    (hbits : ∀ a : α, ((range (bits α)).map fun i => f (scale (basis i) (bit a i))).sum = f a) :
    LawfulShareRing α where
  add_assoc a b c := hf (by simp only [hadd]; ring)
  add_comm a b := hf (by simp only [hadd]; ring)
  zero_add a := hf (by simp only [hadd, hzero]; ring)
  neg_add a := hf (by simp only [hadd, hneg, hzero]; ring)
  sub_eq a b := hf (by simp only [hadd, hsub, hneg]; ring)
  mul_assoc a b c := hf (by simp only [hmul]; ring)
  mul_comm a b := hf (by simp only [hmul]; ring)
  one_mul a := hf (by simp only [hmul, hone]; ring)
  mul_add a b c := hf (by simp only [hmul, hadd]; ring)
  mul_zero a := hf (by simp only [hmul, hzero]; ring)
  ofNat?_toNat := hread
  toNat_lt := hlt
  sum_bits a := hf (by rw [map_sum hadd hzero, map_map]; exact hbits a)

variable [LawfulShareRing α]

theorem ShareRing.sum_eq_sum (xs : List α) : sum xs = xs.sum := by
  have h := map_sum (f := fun a : α => a) (fun _ _ => rfl) rfl xs
  rwa [map_id'] at h

/-- An element that is sent arrives. -/
theorem Wire.carries_element (a : α) : (Wire.element α).Carries a := by
  intro rest
  have hbytes := Wire.carries_bytes (Bytes.length_ofNatLE (ShareRing.bytes α) (toNat a)) rest
  have hread : Bytes.toNatLE (Bytes.ofNatLE (ShareRing.bytes α) (toNat a)) = toNat a := by
    rw [Bytes.toNatLE_ofNatLE, Nat.pow_eq, Nat.mod_eq_of_lt (LawfulShareRing.toNat_lt a)]
  simp only [element, ShareRing.encode, bytes, id_eq] at hbytes ⊢
  rw [hbytes]
  simp only [bind, Except.bind, hread, LawfulShareRing.ofNat?_toNat]

end Ring

/-- The sum of what `n` parties hold. -/
def total {α : Type} [ShareRing α] (n : Nat) (x : Nat → α) : α := sum ((range n).map x)

section Totals

variable {α : Type} [ShareRing α] [LawfulShareRing α] (n : Nat) (x y : Nat → α) (c : α)

theorem total_eq_sum : total n x = ((range n).map x).sum := sum_eq_sum _

theorem total_add : total n (fun i => x i + y i) = total n x + total n y := by
  simp only [total_eq_sum, sum_map_add]

theorem total_sub : total n (fun i => x i - y i) = total n x - total n y := by
  rw [eq_sub_iff_add_eq, ← total_add]
  simp only [sub_add_cancel]

theorem total_mul_right : total n (fun i => x i * c) = total n x * c := by
  simp only [total_eq_sum, sum_map_mul_right]

theorem total_mul_left : total n (fun i => c * x i) = c * total n x := by
  simp only [total_eq_sum, sum_map_mul_left]

theorem total_zero : total n (fun _ => (0 : α)) = 0 := by
  simp [total_eq_sum]

theorem total_succ : total (n + 1) x = total n x + x n := by
  simp [total_eq_sum, range_succ]

omit [LawfulShareRing α] in
variable {n x y} in
theorem total_congr (h : ∀ i < n, x i = y i) : total n x = total n y :=
  congrArg sum (map_congr_left fun i hi => h i (mem_range.mp hi))

end Totals

/-- Two lists of shares add up to a list. -/
structure AddUp {α : Type} [Add α] (x y whole : List α) : Prop where
  left : x.length = whole.length
  right : y.length = whole.length
  sum : zipWith (· + ·) x y = whole

namespace AddUp

theorem of_fn {α : Type} [Add α] {n : Nat} {f g h : Nat → α} (hsum : ∀ k < n, f k + g k = h k) :
    AddUp ((range n).map f) ((range n).map g) ((range n).map h) where
  left := by simp
  right := by simp
  sum := by
    rw [zipWith_map, zipWith_self]
    exact map_congr_left fun k hk => hsum k (mem_range.mp hk)

variable {α : Type} [ShareRing α] [LawfulShareRing α] {x y z x' y' z' : List α}

theorem zipWith_comm (x y : List α) : List.zipWith (· + ·) x y = List.zipWith (· + ·) y x := by
  rw [List.zipWith_comm]
  congr 1
  funext a b
  exact add_comm b a

theorem symm (h : AddUp x y z) : AddUp y x z where
  left := h.right
  right := h.left
  sum := by rw [← h.sum, zipWith_comm]

/-- Shares of two lists are added on both sides. -/
theorem add (h : AddUp x y z) (h' : AddUp x' y' z') :
    AddUp (zipWith (· + ·) x x') (zipWith (· + ·) y y') (zipWith (· + ·) z z') where
  left := by simp [h.left, h'.left]
  right := by simp [h.right, h'.right]
  sum := by
    rw [← h.sum, ← h'.sum]
    refine ext_getElem (by simp; omega) fun k _ _ => ?_
    simp only [getElem_zipWith]
    exact add_add_add_comm _ _ _ _

end AddUp

end Beaver
