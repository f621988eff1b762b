import Mathlib
import Beaver.Proofs.Generator.Parts
import Beaver.Proofs.Generator.Workers
import Beaver.Proofs.TagCheck

/-!
# Cross terms

A sum over all pairs of parties splits into the terms of one party, which it computes alone,
and the terms of two, of which the two get shares.  If the shares of every two parties add up
to their terms, then the sums of the shares over all peers, with the terms of one party,
add up to the whole (`completes_of_pairs`).  The jobs that all parties run with all their
peers give such shares (`Prepared.together_crossAll`).
-/

namespace Beaver

open List
open ShareRing
open Multiplier (Job Output Matching Computes Ready)

section Sums

variable {α : Type} [ShareRing α] [LawfulShareRing α]

/-- The sum of what the other parties hold. -/
def othersTotal (n i : Nat) (x : Nat → α) : α := ((others n i).map x).sum

theorem othersTotal_succ {n i : Nat} (hi : i < n) (x : Nat → α) :
    othersTotal (n + 1) i x = othersTotal n i x + x n := by
  have hni : n ≠ i := Nat.ne_of_gt hi
  simp [othersTotal, others, range_succ, hni]

theorem othersTotal_self (n : Nat) (x : Nat → α) : othersTotal (n + 1) n x = total n x := by
  have hothers : others (n + 1) n = range n := by
    rw [others, range_succ, filter_append, filter_eq_self.mpr]
    · simp
    · intro i hi
      simpa using Nat.ne_of_lt (mem_range.mp hi)
  rw [othersTotal, hothers, total_eq_sum]

/-- The terms of all pairs, when one more party joins. -/
theorem total_othersTotal_succ (n : Nat) (f : Nat → Nat → α) :
    total (n + 1) (fun i => othersTotal (n + 1) i (f i))
      = total n (fun i => othersTotal n i (f i)) + total n fun i => f i n + f n i := by
  have hstep : total n (fun i => othersTotal (n + 1) i (f i))
      = total n fun i => othersTotal n i (f i) + f i n :=
    total_congr fun i hi => othersTotal_succ hi (f i)
  rw [total_succ, hstep, othersTotal_self, total_add, total_add, add_assoc]

theorem total_total_succ (n : Nat) (f : Nat → Nat → α) :
    total (n + 1) (fun i => total (n + 1) (f i))
      = total n (fun i => total n (f i)) + (total n fun i => f i n + f n i) + f n n := by
  have hstep : total n (fun i => total (n + 1) (f i)) = total n fun i => total n (f i) + f i n :=
    total_congr fun i _ => total_succ n (f i)
  rw [total_succ, hstep, total_succ, total_add, total_add]
  ring

/-- What the parties hold completes the terms `f i i` to the sum of all terms. -/
def Completes (n : Nat) (f : Nat → Nat → α) (c : Nat → α) : Prop :=
  (total n fun i => f i i) + total n c = total n fun i => total n (f i)

/-- **Shares of the terms of every two parties** add up to what is missing. -/
theorem completes_of_pairs {n : Nat} {f c : Nat → Nat → α}
    (h : ∀ i j, i < j → j < n → c i j + c j i = f i j + f j i) :
    Completes n f fun i => othersTotal n i (c i) := by
  rw [Completes]
  induction n with
  | zero => simp [total_eq_sum]
  | succ n ih =>
    have hpairs : (total n fun i => c i n + c n i) = total n fun i => f i n + f n i :=
      total_congr fun i hi => h i n hi (Nat.lt_succ_self n)
    rw [total_othersTotal_succ, total_total_succ, hpairs,
      ← ih fun i j hij hj => h i j hij (Nat.lt_succ_of_lt hj), total_succ]
    ring

end Sums

section Kinds

/-- A kind of job that all parties run on their parts of a list of items. -/
structure Kind (γ τ μ α : Type) where
  /-- The job of party `i`. -/
  job : Nat → List γ → Job τ
  /-- What is taken from the results. -/
  pick : Output τ μ → Except Error (List α)
  /-- The term of parties `i` and `j` for an item. -/
  term : γ → Nat → Nat → α
  /-- Whether the values of a party are evaluated under the keys of the others. -/
  evaluated : Nat → Bool

variable {γ τ μ α : Type} [ShareRing τ] [ShareRing μ] [Lift τ μ] [ShareRing α]

/-- The lengths of a party's evaluations in jobs of the given lengths. -/
def Kind.evaluations (k : Kind γ τ μ α) (party : Nat) (sizes : List Nat) : List Nat :=
  if k.evaluated party then sizes else []

omit [ShareRing τ] [ShareRing μ] [Lift τ μ] [ShareRing α] in
theorem Kind.evaluations_cons (k : Kind γ τ μ α) (party size : Nat) (sizes : List Nat) :
    k.evaluations party (size :: sizes) = k.evaluations party [size] ++ k.evaluations party sizes := by
  rw [evaluations, evaluations, evaluations]
  split <;> rfl

/-- The keys of two parties. -/
def pairKeys (keys : Option (Nat → μ)) (i j : Nat) : Option (μ × μ) := keys.map fun key => (key i, key j)

/-- The jobs of any two parties match and give shares of their terms. -/
structure Kind.Lawful (k : Kind γ τ μ α) (n : Nat) (keys : Option (Nat → μ)) : Prop where
  matching : ∀ i j items, Matching (k.job i items) (k.job j items)
  length : ∀ i items, (k.job i items).length = items.length
  evaluations : ∀ i party items, (k.job i items).evaluations party = k.evaluations party [items.length]
  tagging : ∀ i items, (k.job i items).tagging = true → keys.isSome = true
  computes : ∀ i j items o o', i < j → j < n →
    Computes i j (pairKeys keys i j) (k.job i items) (k.job j items) o o' →
    ∃ x x', k.pick o = .ok x ∧ k.pick o' = .ok x' ∧
      AddUp x x' (items.map fun p => k.term p i j + k.term p j i)

/-- Products of shared values. -/
def productKind (τ μ : Type) [ShareRing τ] : Kind ((Nat → τ) × (Nat → τ)) τ μ τ where
  job i items := .triple (items.map (·.1 i)) (items.map (·.2 i))
  pick := Generator.pickProducts
  term p i j := p.1 i * p.2 j
  evaluated _ := false

/-- Squares of shared values. -/
def squareKind (τ μ : Type) [ShareRing τ] : Kind (Nat → τ) τ μ τ where
  job i items := .square (items.map (· i))
  pick := Generator.pickProducts
  term x i j := x i * x j
  evaluated _ := false

/-- Tags of shared values. -/
def tagKind (τ : Type) {μ : Type} [ShareRing μ] [Lift τ μ] (key : Nat → μ) : Kind (Nat → τ) τ μ μ where
  job i items := .authenticate (items.map (· i))
  pick := Generator.pickTags
  term x i j := key j * Lift.lift (x i)
  evaluated _ := true

/-- Tags of the values of one party. -/
def inputKind (τ : Type) {μ : Type} [ShareRing μ] [Lift τ μ] (owner : Nat) (key : Nat → μ) :
    Kind (Nat → τ) τ μ μ where
  job i items := .input owner (items.map (· i))
  pick := Generator.pickTags
  term x i j := if i = owner then key j * Lift.lift (x i) else 0
  evaluated party := owner = party

theorem lawful_productKind (n : Nat) (keys : Option (Nat → μ)) : (productKind τ μ).Lawful n keys where
  matching i j items := .triple (by simp) (by simp) (by simp)
  length i items := length_map _
  evaluations _ _ _ := rfl
  tagging _ _ h := by cases h
  computes i j items o o' _ _ h := by
    cases h with
    | @triple _ _ _ _ c c' hsum =>
      refine ⟨c, c', rfl, rfl, ?_⟩
      rwa [zipWith_map, zipWith_self, zipWith_map, zipWith_self,
        zipWith_map, zipWith_self] at hsum

theorem lawful_squareKind [LawfulShareRing τ] (n : Nat) (keys : Option (Nat → μ)) :
    (squareKind τ μ).Lawful n keys where
  matching i j items := .square (by simp)
  length i items := length_map _
  evaluations _ _ _ := rfl
  tagging _ _ h := by cases h
  computes i j items o o' _ _ h := by
    cases h with
    | @square _ _ c c' hsum =>
      refine ⟨c, c', rfl, rfl, ?_⟩
      rw [zipWith_map, zipWith_self] at hsum
      have hterm : ∀ x : Nat → τ, x i * x j + x i * x j = x i * x j + x j * x i := by
        intro x
        rw [mul_comm (x j)]
      simp only [hterm] at hsum
      exact hsum

theorem lawful_tagKind (n : Nat) (key : Nat → μ) : (tagKind τ key).Lawful n (some key) where
  matching i j items := .authenticate (by simp)
  length i items := length_map _
  evaluations i party items := congrArg (fun n => [n]) (length_map _)
  tagging _ _ _ := rfl
  computes i j items o o' _ _ h := by
    cases h with
    | @authenticate _ _ _ _ c c' hkeys hsum =>
      cases hkeys
      refine ⟨c, c', rfl, rfl, ?_⟩
      rwa [zipWith_map, zipWith_self] at hsum

theorem lawful_inputKind [LawfulShareRing μ] (n owner : Nat) (key : Nat → μ) :
    (inputKind τ owner key).Lawful n (some key) where
  matching i j items := .input owner (by simp)
  length i items := length_map _
  evaluations i party items := by
    simp [inputKind, Job.evaluations, Kind.evaluations]
  tagging _ _ _ := rfl
  computes i j items o o' hij _ h := by
    have hji : j ≠ i := Nat.ne_of_gt hij
    generalize hjob : (inputKind τ owner key).job i items = job at h
    generalize hjob' : (inputKind τ owner key).job j items = job' at h
    cases h with
    | triple _ => cases hjob
    | square _ => cases hjob
    | authenticate _ _ => cases hjob
    | @mine _ _ _ _ c c' hkeys hsum =>
      cases hjob
      cases hjob'
      cases hkeys
      refine ⟨c, c', rfl, rfl, ?_⟩
      rw [map_map] at hsum
      simpa [inputKind, hji, Function.comp_def] using hsum
    | @theirs _ _ _ _ c c' hkeys hsum =>
      cases hjob
      cases hjob'
      cases hkeys
      refine ⟨c, c', rfl, rfl, ?_⟩
      rw [map_map] at hsum
      simpa [inputKind, Ne.symm hji, Function.comp_def] using hsum
    | others hi hj =>
      cases hjob
      cases hjob'
      refine ⟨_, _, rfl, rfl, ?_⟩
      simp only [inputKind, Ne.symm hi, Ne.symm hj, if_false, add_zero, map_const',
        length_map]
      refine ⟨rfl, rfl, ?_⟩
      simp

end Kinds

namespace Generator

/-- The generators of all parties, when evaluations of the given lengths are still to come for
the values of every party. -/
def Prepared {τ μ : Type} [ShareRing μ] (n : Nat) (c : Config) (keys : Option (Nat → μ))
    (sizes : Nat → List Nat) (g : Nat → Generator τ μ) : Prop :=
  SetUp n c (fun i => keys.map (· i))
    (fun i j => Ready c.passive (pairKeys keys i j) (sizes i) (sizes j)) g

section Lists

variable {α : Type} [ShareRing α]

theorem foldl_zipWith_add [LawfulShareRing α] (size : Nat) (js : List Nat) (f : Nat → Nat → α)
    (g : Nat → α) :
    (js.map fun j => (range size).map (f j)).foldl (zipWith (· + ·)) ((range size).map g)
      = (range size).map fun k => g k + (js.map fun j => f j k).sum := by
  induction js generalizing g with
  | nil => simp
  | cons j js ih =>
    rw [map_cons, foldl_cons, zipWith_map, zipWith_self, ih]
    simp only [map_cons, sum_cons, add_assoc]

/-- The sums of lists of one length. -/
theorem foldl_zeros [LawfulShareRing α] {size : Nat} {js : List Nat} {x : Nat → List α}
    (h : ∀ j ∈ js, (x j).length = size) :
    (js.map x).foldl (zipWith (· + ·)) (replicate size 0)
      = (range size).map fun k => (js.map fun j => Row.entry ⟨x j⟩ k).sum := by
  have hx : js.map x = js.map fun j => (range size).map (Row.entry ⟨x j⟩) :=
    map_congr_left fun j hj => by rw [← h j hj, Row.map_range_entry]
  have hzeros : replicate size (0 : α) = (range size).map fun _ => 0 := by
    rw [map_const', length_range]
  rw [hx, hzeros, foldl_zipWith_add]
  simp only [zero_add]

/-- Entries of shares that add up. -/
theorem entry_add {γ : Type} {x y : List α} {items : List γ} {f : γ → α}
    (h : AddUp x y (items.map f)) {k : Nat} {p : γ} (hp : items[k]? = some p) :
    Row.entry ⟨x⟩ k + Row.entry ⟨y⟩ k = f p := by
  obtain ⟨hk, rfl⟩ := List.getElem?_eq_some_iff.mp hp
  have hx : k < x.length := by rw [h.left, length_map]; exact hk
  have hy : k < y.length := by rw [h.right, length_map]; exact hk
  have hsum : (zipWith (· + ·) x y)[k]? = (items.map f)[k]? := by rw [h.sum]
  simpa [Row.entry, hx, hy, hk] using hsum

end Lists

section Completed

variable {γ τ μ α : Type} [ShareRing α] {n : Nat} {k : Kind γ τ μ α}

/-- The parties hold shares that complete the terms of all items. -/
def Completed (n : Nat) (k : Kind γ τ μ α) (items : List γ) (x : Nat → List α) : Prop :=
  Held (fun p => Completes n (k.term p)) items x

/-- The sums of shares of the terms of every two parties. -/
theorem completed_of_pairs [LawfulShareRing α] {items : List γ} {x : Nat → Nat → List α}
    (hx : ∀ i j, i < j → j < n →
      AddUp (x i j) (x j i) (items.map fun p => k.term p i j + k.term p j i)) :
    Completed n k items fun i => (range items.length).map fun q =>
      ((others n i).map fun j => Row.entry ⟨x i j⟩ q).sum := by
  refine ⟨(range items.length).map fun q i => othersTotal n i fun j => Row.entry ⟨x i j⟩ q,
    ?_, ?_⟩
  · funext i
    rw [map_map]
    rfl
  · refine forall₂_iff_get.mpr ⟨by simp, fun q hq _ => ?_⟩
    simp only [get_eq_getElem, getElem_map, getElem_range]
    exact completes_of_pairs fun i j hij hj =>
      entry_add (hx i j hij hj) (getElem?_eq_getElem hq)

end Completed

variable {v r : RingName} [Lift v.Carrier r.Carrier] {α γ : Type} [ShareRing α] [LawfulShareRing α]
variable {n : Nat} {c : Config} {keys : Option (Nat → r.Carrier)} {rest : Nat → List Nat}
variable {g : Nat → Generator v.Carrier r.Carrier} {k : Kind γ v.Carrier r.Carrier α} {tape : Nat → Tape}

omit [LawfulShareRing α] in
/-- **All parties run a job** with their peers. -/
theorem Prepared.together_run (hk : k.Lawful n keys) {items : List γ}
    (h : Prepared n c keys (fun i => k.evaluations i [items.length] ++ rest i) g)
    (hroom : ∀ i, (k.job i items).HasRoom r.Carrier) :
    Together n (fun i => ((Workers.run (k.job i items)).zoom (·.workers)
      fun workers g => { g with workers }).start (g i)) tape
      (Everyone fun outs g' => Prepared n c keys rest g' ∧
        ∃ out : Nat → Nat → Output v.Carrier r.Carrier, (outs = fun i => (others n i).map (out i)) ∧
          ∀ i j, i < j → j < n →
            Computes i j (pairKeys keys i j) (k.job i items) (k.job j items) (out i j) (out j i)) := by
  obtain ⟨m, hready, rfl⟩ := h
  have hmeets : ∀ i j, i < j → j < n → ∀ t u, Meets i j (Succeed fun o o' x y =>
      Computes i j (pairKeys keys i j) (k.job i items) (k.job j items) o o' ∧
        Ready c.passive (pairKeys keys i j) (rest i) (rest j) x y)
      ((Multiplier.process (Player.link ⟨i, n⟩ j) (k.job i items)).start (m i j))
      ((Multiplier.process (Player.link ⟨j, n⟩ i) (k.job j items)).start (m j i)) [] [] t u := by
    intro i j hij hj t u
    have hpair := hready i j hij hj
    dsimp only at hpair
    rw [← hk.evaluations i i, ← hk.evaluations i j] at hpair
    refine hpair.meets_process (Player.joined_link (Nat.ne_of_lt hij) n) (hk.matching i j items)
      (hroom i) (fun htag => ?_) t u
    rw [pairKeys, Option.isSome_map]
    exact hk.tagging i items htag
  refine Together.zoom _ _ _ (Workers.together_run (R := fun i j a b =>
    Computes i j (pairKeys keys i j) (k.job i items) (k.job j items) a.1 b.1 ∧
      Ready c.passive (pairKeys keys i j) (rest i) (rest j) a.2 b.2) hmeets c.threaded) ?_
  rintro _ _ ⟨res, hres, rfl, rfl⟩
  exact ⟨⟨fun i j => (res i j).2, fun i j hij hj => (hres i j hij hj).2, rfl⟩,
    fun i j => (res i j).1, rfl, fun i j hij hj => (hres i j hij hj).1⟩

/-- **The cross terms of one job.** -/
theorem Prepared.together_crossTerms (hk : k.Lawful n keys) {items : List γ}
    (h : Prepared n c keys (fun i => k.evaluations i [items.length] ++ rest i) g)
    (hroom : ∀ i, (k.job i items).HasRoom r.Carrier) :
    Together n (fun i => (crossTerms k.pick (k.job i items)).start (g i)) tape
      (Everyone fun x g' => Completed n k items x ∧ Prepared n c keys rest g') := by
  refine Together.andThen (h.together_run hk hroom) ?_
  rintro _ g' tape' ⟨hprepared, out, rfl, hout⟩
  obtain ⟨x, hx⟩ := Together.exists_pairwise fun i j hij hj =>
    hk.computes i j items (out i j) (out j i) hij hj (hout i j hij hj)
  have hpick : ∀ i < n, ∀ j ∈ others n i,
      k.pick (out i j) = .ok (x i j) ∧ (x i j).length = items.length := by
    intro i hi j hj
    obtain ⟨hjn, hji⟩ := mem_others.mp hj
    rcases Nat.lt_or_gt_of_ne hji with hlt | hgt
    · obtain ⟨-, hpick, hsum⟩ := hx j i hlt hi
      exact ⟨hpick, hsum.right.trans (length_map _)⟩
    · obtain ⟨hpick, -, hsum⟩ := hx i j hgt hjn
      exact ⟨hpick, hsum.left.trans (length_map _)⟩
  have hparts : ∀ i < n, ((others n i).map (out i)).mapM (fun o => do
      let part ← k.pick o
      checkLength (k.job i items).length part.length
      pure part) = .ok ((others n i).map (x i)) := by
    intro i hi
    rw [mapM_map]
    refine mapM_eq_ok fun j hj => ?_
    obtain ⟨hpick, hlength⟩ := hpick i hi j hj
    rw [Function.comp_apply, hpick, hk.length]
    show (checkLength items.length (x i j).length >>= fun _ => pure (x i j)) = _
    rw [hlength, checkLength, if_pos rfl]
    rfl
  refine Together.congr (Together.pure ⟨completed_of_pairs fun i j hij hj => (hx i j hij hj).2.2,
    hprepared⟩) (fun i hi => ?_) fun _ _ => rfl
  rw [hparts i hi, Session.start_bind_of_done (Session.start_check_ok _ _), hk.length,
    foldl_zeros fun j hj => (hpick i hi j hj).2]

/-- **Cross terms, job after job.** -/
theorem Prepared.together_crossAll (hk : k.Lawful n keys) {parts : List (List γ)}
    (h : Prepared n c keys (fun i => k.evaluations i (parts.map length) ++ rest i) g)
    (hroom : ∀ items ∈ parts, ∀ i, (k.job i items).HasRoom r.Carrier) :
    Together n (fun i => (crossAll k.pick (parts.map (k.job i))).start (g i)) tape
      (Everyone fun x g' => Completed n k parts.flatten x ∧ Prepared n c keys rest g') := by
  have hjobs : Together n (fun i => ((parts.map (k.job i)).mapM (crossTerms k.pick)).start (g i)) tape
      (Everyone fun xs g' => Completed n k parts.flatten (fun i => (xs i).flatten) ∧
        Prepared n c keys rest g') := by
    induction parts generalizing g tape with
    | nil =>
      refine Together.pure (x := fun _ => []) ⟨Held.nil, ?_⟩
      simpa [Kind.evaluations] using h
    | cons items parts ih =>
      simp only [map_cons, k.evaluations_cons _ items.length (parts.map length),
        append_assoc] at h
      simp only [map_cons, mapM_cons]
      refine Together.andThen (h.together_crossTerms hk (hroom items mem_cons_self)) ?_
      rintro x g' tape' ⟨hx, hprepared⟩
      refine Together.andThen (ih hprepared fun items h => hroom items (mem_cons_of_mem _ h)) ?_
      rintro xs g'' tape'' ⟨hxs, hprepared⟩
      exact Together.pure (x := fun i => x i :: xs i) ⟨hx.append hxs, hprepared⟩
  refine Together.andThen hjobs ?_
  rintro xs g' tape' ⟨hxs, hprepared⟩
  exact Together.pure (x := fun i => (xs i).flatten) ⟨hxs, hprepared⟩

end Generator

end Beaver
