import Mathlib

/-!
# Data that all parties have parts of

An item that every party has a part of is a function from the parties to their parts, and
data is a list of such items: party `i` has the list of its parts.  `Held R items z` says
that the lists `z i` are the parts of data that is related to `items`, one by one, as `R`
says.  What every party computes on its own from such lists, item by item, is data again
(`Held.zipWith`).
-/

namespace Beaver

open List

variable {γ δ ε ζ : Type}

/-- The parties hold the parts of data, of which every entry is related to an item as `R`
says. -/
def Held (R : γ → (Nat → δ) → Prop) (items : List γ) (z : Nat → List δ) : Prop :=
  ∃ data : List (Nat → δ), (z = fun i => data.map (· i)) ∧ Forall₂ R items data

/-- The parties hold the parts of `n` entries, of which each is as `P` says. -/
def Holds (n : Nat) (P : (Nat → δ) → Prop) (z : Nat → List δ) : Prop :=
  ∃ data : List (Nat → δ), (z = fun i => data.map (· i)) ∧ data.length = n ∧ ∀ x ∈ data, P x

/-- Lists of one length are the parts of data. -/
theorem exists_data [Zero δ] {n : Nat} {z : Nat → List δ} (hz : ∀ i, (z i).length = n) :
    ∃ data : List (Nat → δ), (z = fun i => data.map (· i)) ∧ data.length = n := by
  refine ⟨(range n).map fun q i => (z i)[q]?.getD 0, ?_, by simp⟩
  funext i
  refine ext_getElem (by simp [hz]) fun q hq _ => ?_
  simp [getElem?_eq_getElem hq]

/-- Two lists of one length are one list of pairs. -/
theorem exists_pairs {xs ys : List δ} (h : xs.length = ys.length) :
    ∃ pairs : List (δ × δ), xs = pairs.map Prod.fst ∧ ys = pairs.map Prod.snd :=
  ⟨xs.zip ys, (map_fst_zip (Nat.le_of_eq h)).symm,
    (map_snd_zip (Nat.le_of_eq h.symm)).symm⟩

namespace Held

variable {R : γ → (Nat → δ) → Prop} {R' : γ → (Nat → ε) → Prop} {R'' : γ → (Nat → ζ) → Prop}
variable {items items' : List γ} {x z z' : Nat → List δ} {y : Nat → List ε}

theorem imp {S : γ → (Nat → δ) → Prop} (h : Held R items z)
    (himp : ∀ p ∈ items, ∀ a, R p a → S p a) : Held S items z := by
  obtain ⟨data, rfl, hdata⟩ := h
  refine ⟨data, rfl, forall₂_iff_get.mpr ⟨hdata.length_eq, fun q hq hq' => ?_⟩⟩
  exact himp _ (get_mem items ⟨q, hq⟩) _ (hdata.get hq hq')

theorem nil : Held R [] fun _ => [] := ⟨[], rfl, .nil⟩

theorem cons {p : γ} {a : Nat → δ} (ha : R p a) (h : Held R items z) :
    Held R (p :: items) fun i => a i :: z i := by
  obtain ⟨data, rfl, hdata⟩ := h
  exact ⟨a :: data, rfl, .cons ha hdata⟩

theorem append (h : Held R items z) (h' : Held R items' z') :
    Held R (items ++ items') fun i => z i ++ z' i := by
  obtain ⟨data, rfl, hdata⟩ := h
  obtain ⟨data', rfl, hdata'⟩ := h'
  refine ⟨data ++ data', ?_, rel_append hdata hdata'⟩
  funext i
  rw [map_append]

/-- Data about one list of items after another can be taken apart. -/
theorem of_append (h : Held R (items ++ items') z) :
    Held R items (fun i => (z i).take items.length) ∧
      Held R items' fun i => (z i).drop items.length := by
  obtain ⟨data, rfl, hdata⟩ := h
  refine ⟨⟨data.take items.length, ?_, ?_⟩, data.drop items.length, ?_, ?_⟩
  · simp only [map_take]
  · simpa using forall₂_take items.length hdata
  · simp only [map_drop]
  · simpa using forall₂_drop items.length hdata

theorem self (f : γ → Nat → δ) (items : List γ) :
    Held (fun p a => a = f p) items fun i => items.map fun p => f p i := by
  refine ⟨items.map f, ?_, forall₂_map_right_iff.mpr (forall₂_same.mpr fun _ _ => rfl)⟩
  funext i
  rw [map_map]
  rfl

/-- **Every party combines its lists on its own**, item by item. -/
theorem zipWith (F : Nat → δ → ε → ζ) (h : Held R items x) (h' : Held R' items y)
    (hF : ∀ p a b, R p a → R' p b → R'' p fun i => F i (a i) (b i)) :
    Held R'' items fun i => zipWith (F i) (x i) (y i) := by
  obtain ⟨data, rfl, hdata⟩ := h
  obtain ⟨data', rfl, hdata'⟩ := h'
  refine ⟨zipWith (fun a b i => F i (a i) (b i)) data data', ?_, ?_⟩
  · funext i
    rw [zipWith_map, map_zipWith]
  · induction hdata generalizing data' with
    | nil => cases hdata'; exact .nil
    | cons ha _ ih =>
      cases hdata' with
      | cons hb hrest => exact .cons (hF _ _ _ ha hb) (ih _ hrest)

/-- Three lists become one. -/
theorem zipThree {η : Type} {A : γ → (Nat → δ) → Prop} {B : γ → (Nat → ε) → Prop}
    {C : γ → (Nat → ζ) → Prop} {S : γ → (Nat → η) → Prop} (make : δ → ε → ζ → η) {w : Nat → List ζ}
    (h : Held A items x) (h' : Held B items y) (h'' : Held C items w)
    (hmake : ∀ p a b c, A p a → B p b → C p c → S p fun i => make (a i) (b i) (c i)) :
    Held S items fun i => List.zipWith (fun a (b, c) => make a b c) (x i) ((y i).zip (w i)) := by
  have hpairs : Held (fun p q => B p (fun i => (q i).1) ∧ C p fun i => (q i).2) items
      fun i => (y i).zip (w i) :=
    .zipWith (fun _ => Prod.mk) h' h'' fun _ _ _ hb hc => ⟨hb, hc⟩
  exact .zipWith (fun _ a q => make a q.1 q.2) h hpairs fun p a q ha hq => hmake p a _ _ ha hq.1 hq.2

/-- What is related to data that is related to items. -/
theorem comp {data : List (Nat → δ)} (h : Forall₂ R items data)
    {S : (Nat → δ) → (Nat → ε) → Prop} (h' : Held S data y) :
    Held (fun p b => ∃ a, R p a ∧ S a b) items y := by
  obtain ⟨data', rfl, hdata'⟩ := h'
  refine ⟨data', rfl, ?_⟩
  induction h generalizing data' with
  | nil => cases hdata'; exact .nil
  | cons ha _ ih =>
    cases hdata' with
    | cons hb hrest => exact .cons ⟨_, ha, hb⟩ (ih _ hrest)

theorem of_map {f : ζ → γ} {items : List ζ} (h : Held R (items.map f) z) :
    Held (fun p => R (f p)) items z := by
  obtain ⟨data, rfl, hdata⟩ := h
  exact ⟨data, rfl, forall₂_map_left_iff.mp hdata⟩

/-- What every entry is like, whatever item it is related to. -/
theorem holds {P : (Nat → δ) → Prop} (h : Held R items z) (hP : ∀ p ∈ items, ∀ a, R p a → P a) :
    Holds items.length P z := by
  obtain ⟨data, rfl, hdata⟩ := h.imp hP
  refine ⟨data, rfl, hdata.length_eq.symm, fun a ha => ?_⟩
  obtain ⟨q, rfl⟩ := mem_iff_get.mp ha
  exact hdata.get (by rw [hdata.length_eq]; exact q.isLt) q.isLt

end Held

end Beaver
