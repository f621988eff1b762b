import Mathlib
import Beaver.Proofs.Batching
import Beaver.Proofs.TagCheck
import Beaver.Sacrifice

/-!
# One batch of a sacrifice, all parties together

A kept triple with the error `e` and a sacrificed one with the error `f` give a check value
that the parties hold shares of, and that value is `t * e - f` for the tossed `t`
(`sharedValue_tau`).  Once check values are there, a random combination of them decides: the
batch is accepted if it is zero (`Gives.conclude_accepted`), and otherwise the parties agree on
the first value that is not (`Gives.conclude_rejected`).
-/

namespace Beaver

open List
open ShareRing

variable {φ : Type} [ShareField φ] [LawfulShareRing φ] {n : Nat} {key : Nat → φ}
variable {x y : Nat → Share φ φ}

section Linear

theorem sharedValue_sub (x y : Nat → Share φ φ) :
    sharedValue n (fun i => x i - y i) = sharedValue n x - sharedValue n y :=
  total_sub n _ _

theorem sharedValue_add (x y : Nat → Share φ φ) :
    sharedValue n (fun i => x i + y i) = sharedValue n x + sharedValue n y :=
  total_add n _ _

theorem sharedValue_mulPublic (x : Nat → Share φ φ) (c : φ) :
    sharedValue n (fun i => (x i).mulPublic c) = sharedValue n x * c :=
  total_mul_right n _ _

namespace Authentic

theorem zero : Authentic n key (fun _ => (0 : Share φ φ)) := by
  have hzero : total n (fun _ => (0 : φ)) = 0 := total_zero n
  exact hzero.trans (by rw [liftedValue]; exact (mul_eq_zero_of_right _ hzero).symm)

theorem add (hx : Authentic n key x) (hy : Authentic n key y) :
    Authentic n key (fun i => x i + y i) := by
  have htags := total_add n (fun i => (x i).tag) (fun i => (y i).tag)
  rw [hx, hy, ← mul_add] at htags
  exact htags.trans (congrArg _ (total_add n _ _).symm)

theorem sub (hx : Authentic n key x) (hy : Authentic n key y) :
    Authentic n key (fun i => x i - y i) := by
  have htags := total_sub n (fun i => (x i).tag) (fun i => (y i).tag)
  rw [hx, hy, ← mul_sub] at htags
  exact htags.trans (congrArg _ (total_sub n _ _).symm)

theorem mulPublic (hx : Authentic n key x) (c : φ) :
    Authentic n key (fun i => (x i).mulPublic c) := by
  have htags := total_mul_right n (fun i => (x i).tag) c
  rw [hx, mul_assoc] at htags
  exact htags.trans (congrArg _ (total_mul_right n _ _).symm)

end Authentic

end Linear

/-- Shares with the coefficients that a stream gives for them. -/
def weights (taus : List (Nat → Share φ φ)) (s : CoinStream) : List ((Nat → Share φ φ) × φ) :=
  taus.zip (samples taus.length s).1

/-- The random combination of shared values. -/
def combination (n : Nat) (taus : List (Nat → Share φ φ)) (s : CoinStream) : φ :=
  ((weights taus s).map fun q => sharedValue n q.1 * q.2).sum

/-- **The combination of shares is a share of the combination**, and stays authentic. -/
theorem combine_shares {taus : List (Nat → Share φ φ)} (h : ∀ x ∈ taus, Authentic n key x)
    (s : CoinStream) :
    Authentic n key (fun i => Sacrifice.combine (taus.map (· i)) s) ∧
      sharedValue n (fun i => Sacrifice.combine (taus.map (· i)) s) = combination n taus s := by
  have hfold : ∀ (z : List ((Nat → Share φ φ) × φ)) (acc : Nat → Share φ φ),
      (∀ q ∈ z, Authentic n key q.1) → Authentic n key acc →
      Authentic n key (fun i => z.foldl (fun acc q => acc + (q.1 i).mulPublic q.2) (acc i)) ∧
        sharedValue n (fun i => z.foldl (fun acc q => acc + (q.1 i).mulPublic q.2) (acc i))
          = sharedValue n acc + (z.map fun q => sharedValue n q.1 * q.2).sum := by
    intro z
    induction z with
    | nil =>
      intro acc _ hacc
      exact ⟨hacc, by simp⟩
    | cons q z ih =>
      intro acc hz hacc
      have hq := (hz q mem_cons_self).mulPublic q.2
      obtain ⟨hauth, hvalue⟩ := ih (fun i => acc i + (q.1 i).mulPublic q.2)
        (fun r hr => hz r (mem_cons_of_mem q hr)) (hacc.add hq)
      refine ⟨hauth, hvalue.trans ?_⟩
      rw [sharedValue_add, sharedValue_mulPublic, map_cons, sum_cons, add_assoc]
  have hparty : ∀ i, Sacrifice.combine (taus.map (· i)) s
      = (weights taus s).foldl (fun acc q => acc + (q.1 i).mulPublic q.2) 0 := by
    intro i
    simp only [Sacrifice.combine, length_map, zip_map_left, foldl_map]
    rfl
  simp only [hparty]
  obtain ⟨hauth, hvalue⟩ := hfold (weights taus s) (fun _ => 0)
    (fun q hq => h q.1 (of_mem_zip hq).1) .zero
  refine ⟨hauth, hvalue.trans ?_⟩
  have hzero : sharedValue n (fun _ => (0 : Share φ φ)) = 0 := total_zero n
  rw [hzero, zero_add, combination]

namespace Sacrifice

/-- A party's state, with its part of the ledger. -/
def standing (b : Ledger φ) (accepted i : Nat) : Sacrifice φ := ⟨b.party i, accepted⟩

/-- All parties' shares of a triple. -/
abbrev Candidate (φ : Type) := Nat → Triple φ φ

namespace Candidate

variable (x : Candidate φ)

/-- How far the product is off. -/
def productError (n : Nat) : φ :=
  sharedValue n (fun i => (x i).c)
    - sharedValue n (fun i => (x i).a) * sharedValue n (fun i => (x i).b)

/-- Both factors and the product have the right tags. -/
structure Valid (n : Nat) (key : Nat → φ) : Prop where
  a : Authentic n key fun i => (x i).a
  b : Authentic n key fun i => (x i).b
  c : Authentic n key fun i => (x i).c

end Candidate

/-- The masked factors of a pair of candidates. -/
def rho (t : φ) (q : Candidate φ × Candidate φ) (i : Nat) : Share φ φ :=
  (q.1 i).a.mulPublic t - (q.2 i).a

@[inherit_doc rho]
def sigma (q : Candidate φ × Candidate φ) (i : Nat) : Share φ φ :=
  (q.1 i).b - (q.2 i).b

/-- The masked factors of a batch: all first ones, then all second ones. -/
def masks (t : φ) (pairs : List (Candidate φ × Candidate φ)) : List (Nat → Share φ φ) :=
  pairs.map (rho t) ++ pairs.map sigma

/-- The check value of a pair of candidates. -/
def tau (n : Nat) (t : φ) (q : Candidate φ × Candidate φ) (i : Nat) : Share φ φ :=
  (q.1 i).c.mulPublic t - (q.2 i).c - (q.2 i).a.mulPublic (sharedValue n (sigma q))
    - (q.1 i).b.mulPublic (sharedValue n (rho t q))

/-- **The check value compares the errors of the two products.** -/
theorem sharedValue_tau (t : φ) (q : Candidate φ × Candidate φ) :
    sharedValue n (tau n t q) = t * q.1.productError n - q.2.productError n := by
  have htau : sharedValue n (tau n t q) = sharedValue n (fun i => (q.1 i).c) * t
      - sharedValue n (fun i => (q.2 i).c)
      - sharedValue n (fun i => (q.2 i).a) * sharedValue n (sigma q)
      - sharedValue n (fun i => (q.1 i).b) * sharedValue n (rho t q) := by
    refine (sharedValue_sub _ _).trans ?_
    rw [sharedValue_sub, sharedValue_sub, sharedValue_mulPublic, sharedValue_mulPublic,
      sharedValue_mulPublic]
  have hrho : sharedValue n (rho t q) = sharedValue n (fun i => (q.1 i).a) * t
      - sharedValue n (fun i => (q.2 i).a) := by
    refine (sharedValue_sub _ _).trans ?_
    rw [sharedValue_mulPublic]
  have hsigma : sharedValue n (sigma q) = sharedValue n (fun i => (q.1 i).b)
      - sharedValue n (fun i => (q.2 i).b) := sharedValue_sub _ _
  rw [htau, hrho, hsigma, Candidate.productError, Candidate.productError]
  ring

/-- All shares of the pair number `j`. -/
def suspects (pairs : List (Candidate φ × Candidate φ)) (j : Nat) : List (Nat → Share φ φ) :=
  match pairs[j]? with
  | some (k, s) => [fun i => (k i).a, fun i => (k i).b, fun i => (k i).c,
      fun i => (s i).a, fun i => (s i).b, fun i => (s i).c]
  | none => []

section Valid

variable {pairs : List (Candidate φ × Candidate φ)}
variable (hvalid : ∀ q ∈ pairs, q.1.Valid n key ∧ q.2.Valid n key) (t : φ)

include hvalid

theorem authentic_masks : ∀ x ∈ masks t pairs, Authentic n key x := by
  intro x hx
  rcases mem_append.mp hx with hx | hx
  · obtain ⟨q, hq, rfl⟩ := mem_map.mp hx
    obtain ⟨h₁, h₂⟩ := hvalid q hq
    exact (h₁.a.mulPublic t).sub h₂.a
  · obtain ⟨q, hq, rfl⟩ := mem_map.mp hx
    obtain ⟨h₁, h₂⟩ := hvalid q hq
    exact h₁.b.sub h₂.b

theorem authentic_taus : ∀ x ∈ pairs.map (tau n t), Authentic n key x := by
  intro x hx
  obtain ⟨q, hq, rfl⟩ := mem_map.mp hx
  obtain ⟨h₁, h₂⟩ := hvalid q hq
  exact (((h₁.c.mulPublic t).sub h₂.c).sub (h₂.a.mulPublic _)).sub (h₁.b.mulPublic _)

end Valid

end Sacrifice

open Sacrifice (standing)

namespace Gives

variable {tape tape' : Nat → Tape} {α : Type}

omit [ShareField φ] [LawfulShareRing φ] in
theorem checking {s : Nat → Session (MacCheck φ) α} {b b' : Ledger φ} {r : Nat → α}
    (h : Gives n (fun i => (s i).start (b.party i)) tape (fun i => (.ok (r i), b'.party i)) tape')
    (accepted : Nat) :
    Gives n (fun i => (Sacrifice.checking (s i)).start (standing b accepted i)) tape
      (fun i => (.ok (r i), standing b' accepted i)) tape' :=
  zoom (·.checker) (fun m s => { s with checker := m }) (standing b accepted) h

/-- Parts are opened one after the other. -/
theorem openParts {parts : List (List (Nat → Share φ φ))}
    (hlength : ∀ part ∈ parts, part.length < 2 ^ 64) (phase : String) (b : Ledger φ)
    (accepted : Nat) (tape : Nat → Tape) :
    Gives n (fun i => ((parts.map (·.map (· i))).mapM fun part =>
        Sacrifice.checking (MacCheck.openShares ⟨i, n⟩ phase part)).start (standing b accepted i)) tape
      (fun i => (.ok (parts.map (·.map (sharedValue n))),
        standing (b.opened n parts.flatten) accepted i)) tape := by
  induction parts generalizing b with
  | nil =>
    have hsame : b.opened n ([] : List (Nat → Share φ φ)) = b := by simp [Ledger.opened]
    simp only [map_nil, mapM_nil, flatten_nil, hsame]
    exact pure _ _ _
  | cons part parts ih =>
    simp only [map_cons, mapM_cons, flatten_cons, Ledger.opened_append]
    refine andThen (checking (openShares (hlength part mem_cons_self) phase b tape) accepted) ?_
    refine andThen (ih (fun q hq => hlength q (mem_cons_of_mem part hq)) _) ?_
    exact pure _ _ _

/-- **Everybody opens the same values**, at most a batch in one message. -/
theorem openInBatches {A : Nat} (hA : 0 < A) (shares : List (Nat → Share φ φ)) (phase : String)
    (b : Ledger φ) (accepted : Nat) (tape : Nat → Tape) :
    Gives n (fun i => (Sacrifice.openShares ⟨⟨i, n⟩, A⟩ phase (shares.map (· i))).start
        (standing b accepted i)) tape
      (fun i => (.ok (shares.map (sharedValue n)), standing (b.opened n shares) accepted i))
      tape := by
  have hsize : ∀ i, 0 < (Sacrifice.Setting.mk ⟨i, n⟩ A).batchSize := by
    intro i
    show 0 < min (2 * A) (2 ^ 64 - 1)
    omega
  have hparts : ∀ part ∈ batches (min (2 * A) (2 ^ 64 - 1)) shares, part.length < 2 ^ 64 := by
    intro part hpart
    have hle := length_le_of_mem_batches (by omega) shares part hpart
    omega
  have hflat := flatten_batches (n := min (2 * A) (2 ^ 64 - 1)) (by omega) shares
  have h := openParts (n := n) hparts phase b accepted tape
  rw [hflat] at h
  refine (andThen h (f := fun _ parts => Pure.pure parts.flatten) ?_).congr ?_
  · simp only [← map_flatten, hflat]
    exact pure _ _ _
  · intro i _
    rw [Sacrifice.openShares, batches_map (hsize i)]
    rfl

section Check

variable {A : Nat} (hA : 0 < A) {taus : List (Nat → Share φ φ)} (b : Ledger φ)
variable (htaus : ∀ x ∈ taus, Authentic n b.key x) (s : CoinStream) (accepted : Nat)
variable (tape : Nat → Tape)

include hA htaus

/-- Check values whose combination is zero are accepted once the tags are checked. -/
theorem checkZero_accepted (hb : b.Sound n) (hn : n < 2 ^ 64) (hzero : combination n taus s = 0) :
    Gives n (fun i => (Sacrifice.checkZero ⟨⟨i, n⟩, A⟩ (taus.map (· i)) s).start
        (standing b accepted i)) tape
      (fun i => (.ok none, standing b.cleared accepted i)) fun i => (tape i).tail.tail.tail := by
  obtain ⟨hauth, hvalue⟩ := combine_shares htaus s
  refine andThen (openInBatches hA [fun i => Sacrifice.combine (taus.map (· i)) s] _ b accepted tape) ?_
  simp only [map_cons, headD_cons, hvalue, hzero, if_true]
  have hsound : (b.opened n [fun i => Sacrifice.combine (taus.map (· i)) s]).Sound n := by
    refine hb.opened ?_
    intro x hx
    rw [mem_singleton.mp hx]
    exact hauth
  refine andThen (checking (check hsound (by simp [Ledger.opened]) hn tape) accepted) ?_
  exact pure _ _ _

/-- Otherwise everybody finds the same value that is not zero. -/
theorem checkZero_rejected (hne : combination n taus s ≠ 0) {j : Nat}
    (hj : (taus.map (sharedValue n)).findIdx? (fun v => decide (v ≠ 0)) = some j) :
    ∃ b', Gives n (fun i => (Sacrifice.checkZero ⟨⟨i, n⟩, A⟩ (taus.map (· i)) s).start
        (standing b accepted i)) tape
      (fun i => (.ok (some j), standing b' accepted i)) tape := by
  obtain ⟨-, hvalue⟩ := combine_shares htaus s
  refine ⟨(b.opened n [fun i => Sacrifice.combine (taus.map (· i)) s]).opened n taus,
    andThen (openInBatches hA [fun i => Sacrifice.combine (taus.map (· i)) s] _ b accepted tape) ?_⟩
  simp only [map_cons, headD_cons, hvalue, if_neg hne]
  refine andThen (andThen (openInBatches hA taus _ _ accepted tape) ?_) (pure _ _ _)
  simp only [hj]
  exact pure _ _ _

/-- A batch is accepted if the combination of its check values is zero. -/
theorem conclude_accepted (hb : b.Sound n) (hn : n < 2 ^ 64) (hzero : combination n taus s = 0)
    (start : Nat) (suspects : Nat → Nat → List (Share φ φ)) (result : Nat → α) :
    Gives n (fun i => (Sacrifice.conclude ⟨⟨i, n⟩, A⟩ start (taus.map (· i)) s (suspects i)
        (result i)).start (standing b accepted i)) tape
      (fun i => (.ok (result i), standing b.cleared (accepted + 1) i))
      fun i => (tape i).tail.tail.tail := by
  refine andThen (checkZero_accepted hA b htaus s accepted tape hb hn hzero) ?_
  exact andThen (Gives.modify _ _ _) (pure _ _ _)

/-- Otherwise everybody fails at the same item. -/
theorem conclude_rejected (hne : combination n taus s ≠ 0) {j : Nat}
    (hj : (taus.map (sharedValue n)).findIdx? (fun v => decide (v ≠ 0)) = some j)
    (start : Nat) (suspects : Nat → List (Nat → Share φ φ)) (result : Nat → α) :
    ∃ b', Gives n (fun i => (Sacrifice.conclude ⟨⟨i, n⟩, A⟩ start (taus.map (· i)) s
        (fun j => (suspects j).map (· i)) (result i)).start (standing b accepted i)) tape
      (fun i => (.error (.error (.sacrifice accepted (start + j))), standing b' accepted i))
      tape := by
  obtain ⟨b', hcheck⟩ := checkZero_rejected hA b htaus s accepted tape hne hj
  refine ⟨b'.opened n (suspects j), andThen hcheck ?_⟩
  refine andThen (Gives.get _ _) ?_
  refine andThen (tryCatch (openInBatches hA (suspects j) _ b' accepted tape)) ?_
  exact fail _ _ _

end Check

section Batch

open Sacrifice

variable {A : Nat} (hA : 0 < A) (hn : n < 2 ^ 64) (b : Ledger φ) (kept accepted : Nat)
variable {pairs : List (Candidate φ × Candidate φ)} (tape : Nat → Tape)

include hA hn

/-- Up to the check values everybody does the same. -/
theorem tripleBatch_start {r : Nat → Except Failure (List (Triple φ φ)) × Sacrifice φ} {t : φ}
    {s : CoinStream} (hs : sample (nextStream n tape) = (t, s))
    (h : Gives n (fun i => (conclude ⟨⟨i, n⟩, A⟩ kept ((pairs.map (tau n t)).map (· i)) s
        (fun j => (suspects pairs j).map (· i)) (pairs.map fun q => q.1 i)).start
          (standing (b.opened n (masks t pairs)) accepted i)) (fun i => (tape i).tail.tail) r tape') :
    Gives n (fun i => (tripleBatch ⟨⟨i, n⟩, A⟩ kept (pairs.map fun q => (q.1 i, q.2 i))).start
      (standing b accepted i)) tape r tape' := by
  refine andThen (shared hn (standing b accepted) tape) ?_
  rw [nextStream] at hs
  simp only [hs]
  have hopen := openInBatches (n := n) hA (masks t pairs) "sacrifice rho sigma" b accepted
    fun i => (tape i).tail.tail
  simp only [masks, map_append, map_map, Function.comp_def, rho, sigma] at hopen
  simp only [map_map, Function.comp_def, length_map]
  refine andThen hopen ?_
  -- what was opened is the masks of all first factors, then those of all second factors
  rw [take_left' (length_map _), drop_left' (length_map _)]
  simp only [zip_map', map_map, Function.comp_def]
  refine h.congr fun i _ => ?_
  rw [map_map]
  congr 2
  funext j
  rw [suspects, getElem?_map]
  cases pairs[j]? with
  | none => rfl
  | some q => rfl

end Batch

end Gives

end Beaver
