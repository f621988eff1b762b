import Mathlib
import Beaver.Proofs.Ring.Instances
import Beaver.Proofs.TagCheck

/-!
# Linear steps on authenticated shares

Sums, differences, public multiples and public summands are formed by every party on its
own, once for its share of the value and once for its share of the tag.  The values always
add up as they should (`total_on`).  The tags add up to the key times the same step on the
lifted shares (`total_tags`), so they stay right as far as lifting a result gives the result
of lifting.

It does where values and tags share a ring, and for bits.  A word of 64 bits however is
lifted by keeping its representative, and what a party's result loses beyond `2^64` is still
in the tags (`slip_words`).
-/

namespace Beaver

open ShareRing

/-- A step that every party takes on its own shares. -/
inductive LinearStep (α : Type) where
  | add
  | sub
  | neg
  | mulPublic (c : α)
  | addPublic (c : α)

namespace LinearStep

variable {α β τ μ : Type}

/-- The same step with a public constant of another ring. -/
def map (f : α → β) : LinearStep α → LinearStep β
  | add => add
  | sub => sub
  | neg => neg
  | mulPublic c => mulPublic (f c)
  | addPublic c => addPublic (f c)

/-- What party `i` makes of elements.  Only party 0 adds a public summand. -/
def on [Add α] [Sub α] [Neg α] [Mul α] (step : LinearStep α) (i : Nat) (x y : α) : α :=
  match step with
  | add => x + y
  | sub => x - y
  | neg => -x
  | mulPublic c => x * c
  | addPublic c => if i = 0 then x + c else x

/-- What party `i` makes of its shares, with its share of the key. -/
def share [ShareRing τ] [ShareRing μ] [Lift τ μ] (step : LinearStep τ) (key : μ) (i : Nat)
    (x y : Share τ μ) : Share τ μ :=
  match step with
  | add => x + y
  | sub => x - y
  | neg => -x
  | mulPublic c => x.mulPublic c
  | addPublic c => x.addPublic c key i

/-- A map between rings that goes with all linear steps. -/
structure Respected [Add α] [Sub α] [Neg α] [Mul α] [Add β] [Sub β] [Neg β] [Mul β]
    (f : α → β) : Prop where
  add (x y : α) : f (x + y) = f x + f y
  sub (x y : α) : f (x - y) = f x - f y
  neg (x : α) : f (-x) = -f x
  mul (x y : α) : f (x * y) = f x * f y

theorem Respected.map_on [Add α] [Sub α] [Neg α] [Mul α] [Add β] [Sub β] [Neg β] [Mul β]
    {f : α → β} (hf : Respected f) (step : LinearStep α) (i : Nat) (x y : α) :
    f (step.on i x y) = (step.map f).on i (f x) (f y) := by
  cases step with
  | add => exact hf.add x y
  | sub => exact hf.sub x y
  | neg => exact hf.neg x
  | mulPublic c => exact hf.mul x c
  | addPublic c =>
    simp only [on, map]
    split
    · exact hf.add x c
    · rfl

theorem value_share [ShareRing τ] [ShareRing μ] [Lift τ μ] (step : LinearStep τ) (key : μ)
    (i : Nat) (x y : Share τ μ) :
    (step.share key i x y).value = step.on i x.value y.value := by
  cases step <;> rfl

section Totals

variable [ShareRing α] [LawfulShareRing α] {n : Nat}

theorem total_neg (x : Nat → α) : total n (fun i => -x i) = -total n x := by
  have hsub := total_sub n (fun _ => 0) x
  rw [total_zero, zero_sub] at hsub
  simpa only [zero_sub] using hsub

theorem total_first (hn : 0 < n) (c : α) : total n (fun i => if i = 0 then c else 0) = c := by
  induction n with
  | zero => exact absurd hn (Nat.lt_irrefl 0)
  | succ n ih =>
    rw [total_succ]
    cases n with
    | zero => rw [if_pos rfl, total_eq_sum]; simp
    | succ n => rw [ih (Nat.succ_pos n), if_neg (Nat.succ_ne_zero n), add_zero]

/-- **A step of all parties is a step on the sums.** -/
theorem total_on (hn : 0 < n) (step : LinearStep α) (x y : Nat → α) :
    total n (fun i => step.on i (x i) (y i)) = step.on 0 (total n x) (total n y) := by
  cases step with
  | add => exact total_add n x y
  | sub => exact total_sub n x y
  | neg => exact total_neg x
  | mulPublic c => exact total_mul_right n x c
  | addPublic c =>
    have hsplit : ∀ i, (if i = 0 then x i + c else x i) = x i + if i = 0 then c else 0 := by
      intro i
      split
      · rfl
      · rw [add_zero]
    simp only [on, hsplit, if_true]
    rw [total_add, total_first hn]

end Totals

section Tags

variable [ShareRing τ] [ShareRing μ] [LawfulShareRing μ] [Lift τ μ] {n : Nat} {key : Nat → μ}
variable {x y : Nat → Share τ μ}

/-- The tags of a step belong to the same step on the lifted shares. -/
theorem total_tags (hx : Authentic n key x) (hy : Authentic n key y) (step : LinearStep τ) :
    total n (fun i => (step.share (key i) i (x i) (y i)).tag)
      = total n key * (step.map Lift.lift).on 0 (liftedValue n x) (liftedValue n y) := by
  cases step with
  | add =>
    have htags := total_add n (fun i => (x i).tag) (fun i => (y i).tag)
    rw [hx, hy, ← mul_add] at htags
    exact htags
  | sub =>
    have htags := total_sub n (fun i => (x i).tag) (fun i => (y i).tag)
    rw [hx, hy, ← mul_sub] at htags
    exact htags
  | neg =>
    have htags := total_neg (n := n) (fun i => (x i).tag)
    rw [hx, ← mul_neg] at htags
    exact htags
  | mulPublic c =>
    have htags := total_mul_right n (fun i => (x i).tag) (Lift.lift c)
    rw [hx, mul_assoc] at htags
    exact htags
  | addPublic c =>
    have htags := total_add n (fun i => (x i).tag) (fun i => key i * Lift.lift c)
    rw [hx, total_mul_right, ← mul_add] at htags
    exact htags

/-- How much more the step on lifted elements gives than the lifted result. -/
def slip (step : LinearStep τ) (i : Nat) (x y : τ) : μ :=
  (step.map Lift.lift).on i (Lift.lift x) (Lift.lift y) - Lift.lift (step.on i x y)

theorem slip_eq_zero (hlift : Respected (Lift.lift : τ → μ))
    (step : LinearStep τ) (i : Nat) (x y : τ) : step.slip i x y = (0 : μ) := by
  rw [slip, hlift.map_on, sub_self]

/-- The tags of a step are off by the key times what was slipped. -/
theorem total_tags_slip (hn : 0 < n) (hx : Authentic n key x) (hy : Authentic n key y)
    (step : LinearStep τ) :
    total n (fun i => (step.share (key i) i (x i) (y i)).tag)
      = total n key * (liftedValue n (fun i => step.share (key i) i (x i) (y i))
        + total n fun i => step.slip i (x i).value (y i).value) := by
  rw [total_tags hx hy, liftedValue, liftedValue, ← total_on hn, liftedValue, ← total_add]
  simp only [value_share, slip, add_sub_cancel]

end Tags

section Words

theorem map_map {γ : Type} (f : α → β) (g : β → γ) (step : LinearStep α) :
    (step.map f).map g = step.map (g ∘ f) := by
  cases step <;> rfl

theorem respected_toZMod (m : Nat) [Modulus m] : Respected (Residue.toZMod (m := m)) where
  add x y := (Residue.toZMod_ofNat _).trans (Nat.cast_add _ _)
  sub x y := by
    refine (Residue.toZMod_ofNat _).trans ?_
    rw [Nat.cast_add, Residue.toZMod_complement, ← sub_eq_add_neg]
    rfl
  neg x := (Residue.toZMod_ofNat _).trans (Residue.toZMod_complement x)
  mul x y := (Residue.toZMod_ofNat _).trans (Nat.cast_mul _ _)

theorem respected_intCast (m : Nat) : Respected (Int.cast : ℤ → ZMod m) where
  add := Int.cast_add
  sub := Int.cast_sub
  neg := Int.cast_neg
  mul := Int.cast_mul

/-- The result of party `i` if words were unbounded. -/
def unbounded (step : LinearStep Word64) (i : Nat) (x y : Word64) : ℤ :=
  (step.map fun c => (c.val : ℤ)).on i (x.val : ℤ) (y.val : ℤ)

/-- The number of words that the exact result has beyond the first; below zero where the
result is. -/
def carry (step : LinearStep Word64) (i : Nat) (x y : Word64) : ℤ :=
  step.unbounded i x y / 2 ^ 64

/-- The exact result, seen modulo a word. -/
theorem intCast_unbounded (m : Nat) (step : LinearStep Word64) (i : Nat) (x y : Word64) :
    ((step.unbounded i x y : ℤ) : ZMod m)
      = (step.map fun c => (c.val : ZMod m)).on i (x.val : ZMod m) (y.val : ZMod m) := by
  rw [unbounded, (respected_intCast m).map_on, map_map, Int.cast_natCast, Int.cast_natCast]
  congr 2
  funext c
  exact Int.cast_natCast c.val

theorem val_on (step : LinearStep Word64) (i : Nat) (x y : Word64) :
    ((step.on i x y).val : ℤ) = step.unbounded i x y % 2 ^ 64 := by
  have hcast : (((step.on i x y).val : ℤ) : ZMod (2 ^ 64)) = (step.unbounded i x y : ℤ) := by
    rw [intCast_unbounded, Int.cast_natCast]
    exact (respected_toZMod (Nat.pow 2 64)).map_on step i x y
  have hmod := (ZMod.intCast_eq_intCast_iff' _ _ _).mp hcast
  have hlt : (step.on i x y).val < 2 ^ 64 := (step.on i x y).isLt
  rw [Int.emod_eq_of_lt (Int.natCast_nonneg _) (by exact_mod_cast hlt)] at hmod
  exact_mod_cast hmod

/-- A residue modulo `2^128` as a ring element. -/
def wideHom : Word128 →+* ZMod (Nat.pow 2 128) where
  toFun := Residue.toZMod
  map_one' := (Residue.toZMod_ofNat 1).trans Nat.cast_one
  map_zero' := (Residue.toZMod_ofNat 0).trans Nat.cast_zero
  map_add' := (respected_toZMod _).add
  map_mul' := (respected_toZMod _).mul

/-- **What a word slips** is the part of the exact result beyond the word. -/
theorem slip_words (step : LinearStep Word64) (i : Nat) (x y : Word64) :
    step.slip i x y = ((2 ^ 64 * step.carry i x y : ℤ) : Word128) := by
  apply Residue.toZMod_injective
  have hlift : ∀ z : Word64, Residue.toZMod (Lift.lift z : Word128) = (z.val : ZMod (Nat.pow 2 128)) :=
    fun z => Residue.toZMod_ofNat z.val
  have hover : Residue.toZMod ((step.map Lift.lift).on i (Lift.lift x) (Lift.lift y) : Word128)
      = (step.unbounded i x y : ℤ) := by
    rw [(respected_toZMod _).map_on, map_map, hlift, hlift, intCast_unbounded]
    congr 2
    funext z
    exact hlift z
  calc Residue.toZMod (step.slip i x y : Word128)
      = (step.unbounded i x y : ℤ) - ((step.on i x y).val : ℤ) := by
        rw [slip, (respected_toZMod _).sub, hover, hlift, Int.cast_natCast]
    _ = ((2 ^ 64 * step.carry i x y : ℤ) : ZMod (Nat.pow 2 128)) := by
        rw [val_on, ← Int.cast_sub, carry]
        congr 1
        omega
    _ = Residue.toZMod ((2 ^ 64 * step.carry i x y : ℤ) : Word128) :=
        (map_intCast wideHom _).symm

end Words

theorem respected_lift_bits : Respected (Lift.lift : Gf2 → Gf128) := by
  have hcases : ∀ x : Gf2, x = ⟨false⟩ ∨ x = ⟨true⟩ := by
    intro x
    obtain ⟨_ | _⟩ := x
    · exact Or.inl rfl
    · exact Or.inr rfl
  constructor
  · intro x y
    rcases hcases x with rfl | rfl <;> rcases hcases y with rfl | rfl <;> decide
  · intro x y
    rcases hcases x with rfl | rfl <;> rcases hcases y with rfl | rfl <;> decide
  · intro x
    rfl
  · intro x y
    rcases hcases x with rfl | rfl
    · exact (zero_mul (Lift.lift y : Gf128)).symm
    · exact (one_mul (Lift.lift y : Gf128)).symm

/-- What a step of party `i` leaves in the tags and not in the values. -/
def overflow : (d : Domain) → LinearStep d.value.Carrier → Nat → d.value.Carrier →
    d.value.Carrier → d.tag.Carrier
  | .same _, _, _, _, _ => 0
  | .bits, _, _, _, _ => 0
  | .words, step, i, x, y => ((2 ^ 64 * step.carry i x y : ℤ) : Word128)

theorem slip_eq_overflow (d : Domain) (step : LinearStep d.value.Carrier) (i : Nat)
    (x y : d.value.Carrier) : step.slip i x y = overflow d step i x y := by
  cases d with
  | same r => exact slip_eq_zero ⟨fun _ _ => rfl, fun _ _ => rfl, fun _ => rfl, fun _ _ => rfl⟩ ..
  | bits => exact slip_eq_zero respected_lift_bits ..
  | words => exact slip_words step i x y

/-- How far the tags of a step are off: the key times what has overflowed. -/
def defect (d : Domain) (n : Nat) (key : Nat → d.tag.Carrier) (step : LinearStep d.value.Carrier)
    (x y : Nat → d.value.Carrier) : d.tag.Carrier :=
  total n key * total n fun i => overflow d step i (x i) (y i)

theorem defect_eq_zero {d : Domain} (hd : d ≠ .words) (n : Nat) (key : Nat → d.tag.Carrier)
    (step : LinearStep d.value.Carrier) (x y : Nat → d.value.Carrier) :
    defect d n key step x y = 0 := by
  have hnothing : total n (fun i => overflow d step i (x i) (y i)) = 0 := by
    cases d with
    | same r => exact total_zero n
    | bits => exact total_zero n
    | words => exact absurd rfl hd
  rw [defect, hnothing, mul_zero]

/-- **Linear steps on authentic shares.**  The values always add up to the step on the shared
values.  The tags are off by the defect, so they are right exactly if it is zero, as it always
is unless words of 64 bits have tags of 128 bits. -/
theorem linear_authentic_iff (d : Domain) {n : Nat} (hn : 0 < n) {key : Nat → d.tag.Carrier}
    {x y : Nat → Share d.value.Carrier d.tag.Carrier} (hx : Authentic n key x)
    (hy : Authentic n key y) (step : LinearStep d.value.Carrier) :
    sharedValue n (fun i => step.share (key i) i (x i) (y i))
      = step.on 0 (sharedValue n x) (sharedValue n y) ∧
    total n (fun i => (step.share (key i) i (x i) (y i)).tag)
      = total n key * liftedValue n (fun i => step.share (key i) i (x i) (y i))
        + defect d n key step (fun i => (x i).value) (fun i => (y i).value) ∧
    (Authentic n key (fun i => step.share (key i) i (x i) (y i)) ↔
      defect d n key step (fun i => (x i).value) (fun i => (y i).value) = 0) ∧
    (d ≠ .words → Authentic n key (fun i => step.share (key i) i (x i) (y i))) := by
  have htags := total_tags_slip hn hx hy step
  simp only [slip_eq_overflow, mul_add] at htags
  have hiff : Authentic n key (fun i => step.share (key i) i (x i) (y i)) ↔
      defect d n key step (fun i => (x i).value) (fun i => (y i).value) = 0 := by
    rw [Authentic, htags, add_eq_left, defect]
  refine ⟨?_, htags, hiff, ?_⟩
  · simp only [sharedValue, value_share]
    exact total_on hn step _ _
  · intro hd
    exact hiff.mpr (defect_eq_zero hd n key step _ _)

section Wrapping

/-- Shares of `2^64 - 1` between two parties, the second of which holds zero. -/
def wrapped (i : Nat) : Share Domain.words.value.Carrier Domain.words.tag.Carrier :=
  if i = 0 then ⟨.ofNat (2 ^ 64 - 1), .ofNat (2 ^ 64 - 1)⟩ else 0

/-- Shares of 1 between two parties, the second of which holds zero. -/
def unit (i : Nat) : Share Domain.words.value.Carrier Domain.words.tag.Carrier :=
  if i = 0 then ⟨.ofNat 1, .ofNat 1⟩ else 0

/-- Shares of the key 1. -/
def unitKey (i : Nat) : Domain.words.tag.Carrier := if i = 0 then 1 else 0

theorem linear_authentic_iff_wrapped :
    0 < 2 ∧ Authentic 2 unitKey wrapped ∧ Authentic 2 unitKey unit ∧
      sharedValue 2 (fun i => add.share (unitKey i) i (wrapped i) (unit i))
        = sharedValue 2 wrapped + sharedValue 2 unit ∧
      (Authentic 2 unitKey (fun i => add.share (unitKey i) i (wrapped i) (unit i)) ↔
        defect .words 2 unitKey .add (fun i => (wrapped i).value) (fun i => (unit i).value)
          = 0) := by
  have hwrapped : Authentic 2 unitKey wrapped := by
    unfold Authentic
    decide
  have hunit : Authentic 2 unitKey unit := by
    unfold Authentic
    decide
  obtain ⟨hvalue, -, hiff, -⟩ := linear_authentic_iff .words Nat.zero_lt_two hwrapped hunit .add
  exact ⟨Nat.zero_lt_two, hwrapped, hunit, hvalue, hiff⟩

/-- The tags of a sum that wraps around are wrong. -/
theorem not_authentic_wrapped : Authentic 2 unitKey wrapped ∧ Authentic 2 unitKey unit ∧
    ¬ Authentic 2 unitKey fun i => wrapped i + unit i := by
  unfold Authentic
  decide

end Wrapping

end LinearStep

end Beaver
