import Mathlib
import Beaver.MacCheck
import Beaver.Proofs.Ring.Laws
import Beaver.Proofs.Tossing

/-!
# Opening shares and checking their tags, all parties together

The *ledger* of the parties is what they have opened since the last check: the values,
which everybody knows, and each party's shares of their tags.  It is sound if the tags are
the key times the values.  Opening authentic shares keeps it sound (`Ledger.Sound.opened`),
and the tags of a sound ledger pass the check, whatever the tossed coefficients
(`Gives.check`).  In general the check decides about one number, the *defect* of the
ledger (`Gives.check_verdict`).
-/

namespace Beaver

open List hiding sum
open ShareRing

variable {τ μ : Type} [ShareRing μ] [Lift τ μ] {n : Nat}

/-- The value that the parties hold shares of. -/
def sharedValue [ShareRing τ] (n : Nat) (x : Nat → Share τ μ) : τ := total n fun i => (x i).value

/-- The sum of the lifted shares, to which the tags belong. -/
def liftedValue (n : Nat) (x : Nat → Share τ μ) : μ := total n fun i => Lift.lift (x i).value

/-- The shares of the tags add up to the key times the lifted value. -/
def Authentic (n : Nat) (key : Nat → μ) (x : Nat → Share τ μ) : Prop :=
  total n (fun i => (x i).tag) = total n key * liftedValue n x

/-- What all parties hold for the next check: the shares of the key, and the opened values
with the shares of their tags. -/
structure Ledger (μ : Type) where
  key : Nat → μ
  pending : List (μ × (Nat → μ))

namespace Ledger

/-- What one party holds of a ledger. -/
def party (b : Ledger μ) (i : Nat) : MacCheck μ :=
  ⟨b.key i, b.pending.map fun p => (p.1, p.2 i)⟩

/-- All tags belong to their values. -/
def Sound (n : Nat) (b : Ledger μ) : Prop :=
  ∀ p ∈ b.pending, total n p.2 = total n b.key * p.1

/-- The ledger after shares were opened. -/
def opened (n : Nat) (b : Ledger μ) (shares : List (Nat → Share τ μ)) : Ledger μ where
  key := b.key
  pending := b.pending ++ shares.map fun x => (liftedValue n x, fun i => (x i).tag)

theorem Sound.opened {b : Ledger μ} (hb : b.Sound n) {shares : List (Nat → Share τ μ)}
    (h : ∀ x ∈ shares, Authentic n b.key x) : (b.opened n shares).Sound n := by
  intro p hp
  rcases mem_append.mp hp with hold | hnew
  · exact hb p hold
  · obtain ⟨x, hx, rfl⟩ := mem_map.mp hnew
    exact h x hx

theorem opened_append (b : Ledger μ) (xs ys : List (Nat → Share τ μ)) :
    b.opened n (xs ++ ys) = (b.opened n xs).opened n ys := by
  simp [opened]

/-- The ledger after a check. -/
def cleared (b : Ledger μ) : Ledger μ := ⟨b.key, []⟩

theorem sound_cleared (b : Ledger μ) : b.cleared.Sound n := by
  intro p hp
  cases hp

end Ledger

omit [ShareRing μ] [Lift τ μ] in
/-- Column `j` of what was gathered has every party's share of item `j`. -/
theorem MacCheck.column_gathered {shares : List (Nat → Share τ μ)} {j : Nat}
    {x : Nat → Share τ μ} (hx : shares[j]? = some x) (n : Nat) :
    column ((range n).map fun k => (shares.map (· k)).map (·.value)) j
      = (range n).map fun k => (x k).value := by
  simp [column, filterMap_map, Function.comp_def, hx]

namespace Gives

/-- **Everybody opens the same values**, and the ledger grows by them. -/
theorem openShares [ShareRing τ] [LawfulShareRing τ] {shares : List (Nat → Share τ μ)}
    (hlength : shares.length < 2 ^ 64) (phase : String) (b : Ledger μ) (tape : Nat → Tape) :
    Gives n (fun i => (MacCheck.openShares ⟨i, n⟩ phase (shares.map (· i))).start (b.party i)) tape
      (fun i => (.ok (shares.map (sharedValue n)), (b.opened n shares).party i)) tape := by
  have hcarries : ∀ i < n, (Wire.element τ).list.Carries ((shares.map (· i)).map (·.value)) :=
    fun i _ => .list (fun x _ => Wire.carries_element x) (by simpa using hlength)
  refine andThen (gather hcarries phase _ tape) ?_
  refine (done _ _).congr fun i _ => ?_
  have hlengths : ∀ theirs ∈ (range n).map fun k => (shares.map (· k)).map (·.value),
      checkLength (shares.map (· i)).length theirs.length = .ok () := by
    intro theirs htheirs
    obtain ⟨k, -, rfl⟩ := mem_map.mp htheirs
    simp [checkLength]
  have hopened : MacCheck.opened
      ((range n).map fun k => (shares.map (· k)).map (·.value)) (shares.map (· i))
      = shares.map fun x => (sharedValue n x, (liftedValue n x, (x i).tag)) := by
    rw [MacCheck.opened]
    apply ext_getElem?
    intro j
    rw [getElem?_map, getElem?_zipIdx, getElem?_map, getElem?_map]
    cases hx : shares[j]? with
    | none => rfl
    | some x =>
      have hcolumn := MacCheck.column_gathered hx n
      simp only [Option.map_some, Nat.zero_add, hcolumn]
      rw [map_map]
      rfl
  rw [Session.start_bind_of_done (Session.start_forM_check hlengths _)]
  simp only [hopened]
  rw [Session.start_bind_of_done (Session.start_modify _ _), Session.start_pure, map_map,
    map_map]
  simp only [Ledger.party, Ledger.opened, map_append, map_map]
  rfl

end Gives

section Check

variable [LawfulShareRing μ]

/-- Sums over the parties and over a list can change places. -/
theorem total_sum_map {β : Type} (z : List β) (f : Nat → β → μ) :
    total n (fun i => (z.map (f i)).sum) = (z.map fun q => total n fun i => f i q).sum := by
  induction z with
  | nil => simp [total_zero]
  | cons q z ih => simp only [map_cons, sum_cons, total_add, ih]

/-- What is pending, with the tossed coefficients. -/
def Ledger.weighted (b : Ledger μ) (s : CoinStream) : List ((μ × (Nat → μ)) × μ) :=
  b.pending.zip (samples b.pending.length s).1

/-- A party's combination of what is pending. -/
theorem Ledger.combine_party (b : Ledger μ) (s : CoinStream) (i : Nat) :
    MacCheck.combine (b.party i).pending s
      = (((b.weighted s).map fun q => q.2 * q.1.1).sum,
          ((b.weighted s).map fun q => q.2 * q.1.2 i).sum) := by
  have hfold : ∀ (z : List ((μ × (Nat → μ)) × μ)) (x y : μ),
      (z.map fun q => ((q.1.1, q.1.2 i), q.2)).foldl
        (fun acc q => (acc.1 + q.2 * q.1.1, acc.2 + q.2 * q.1.2)) (x, y)
        = (x + (z.map fun q => q.2 * q.1.1).sum, y + (z.map fun q => q.2 * q.1.2 i).sum) := by
    intro z
    induction z with
    | nil => intro x y; simp
    | cons q z ih =>
      intro x y
      rw [map_cons, foldl_cons, ih, map_cons, sum_cons, map_cons,
        sum_cons, add_assoc, add_assoc]
  have hzip : (b.party i).pending.zip (samples b.pending.length s).1
      = (b.weighted s).map fun q => ((q.1.1, q.1.2 i), q.2) := by
    rw [party, zip_map_left]
    rfl
  have hlength : (b.party i).pending.length = b.pending.length := length_map _
  rw [MacCheck.combine, hlength]
  dsimp only
  rw [hzip]
  exact (hfold _ 0 0).trans (by rw [zero_add, zero_add])

/-- What the check adds up to: the shares of every tag less the key times its value, with
the tossed coefficients. -/
def Ledger.defect (n : Nat) (b : Ledger μ) (s : CoinStream) : μ :=
  ((b.weighted s).map fun q => q.2 * (total n q.1.2 - total n b.key * q.1.1)).sum

/-- **The parties' shares of the check add up to the defect of the ledger.** -/
theorem Ledger.total_sigma (b : Ledger μ) (s : CoinStream) :
    total n (fun i => (MacCheck.combine (b.party i).pending s).2
      - b.key i * (MacCheck.combine (b.party i).pending s).1) = b.defect n s := by
  have hterm : ∀ q : (μ × (Nat → μ)) × μ, q.2 * (total n q.1.2 - total n b.key * q.1.1)
      = total n (fun i => q.2 * q.1.2 i) - total n b.key * (q.2 * q.1.1) := by
    intro q
    rw [total_mul_left]
    ring
  simp only [b.combine_party s, defect, hterm]
  rw [total_sub, total_mul_right, total_sum_map, ← sum_map_mul_left, sub_eq_iff_eq_add,
    ← sum_map_add]
  simp only [sub_add_cancel]

/-- **The tags of a sound ledger pass the check**, whatever the coefficients. -/
theorem Ledger.Sound.defect_eq_zero {b : Ledger μ} (hb : b.Sound n) (s : CoinStream) :
    b.defect n s = 0 := by
  refine sum_eq_zero fun v hv => ?_
  obtain ⟨q, hq, rfl⟩ := mem_map.mp hv
  rw [hb q.1 (of_mem_zip hq).1, sub_self, mul_zero]

/-- **The check decides whether the defect is zero.** -/
theorem Gives.check_verdict {b : Ledger μ} (hne : b.pending ≠ []) (hn : n < 2 ^ 64)
    (tape : Nat → Tape) :
    Gives n (fun i => (MacCheck.check ⟨i, n⟩).start (b.party i)) tape
      (fun i => (if b.defect n (nextStream n tape) = 0 then .ok () else .error (.error (.cheat .tag)),
        b.cleared.party i))
      fun i => (tape i).tail.tail.tail := by
  have hsome : ∀ i, (b.party i).pending.isEmpty = false := by
    intro i
    simpa [Ledger.party] using hne
  refine andThen (Gives.get _ _) (andThen (Gives.modify _ _ _) ?_)
  simp only [hsome, Bool.false_eq_true, if_false]
  refine andThen (shared hn b.cleared.party tape) (andThen (Gives.get _ _) ?_)
  refine andThen (commitAndOpen (fun _ _ => Wire.carries_element _) hn _ _ _) ?_
  have hsum : sum ((range n).map fun i => (MacCheck.combine (b.party i).pending
      (nextStream n tape)).2 - (b.cleared.party i).key * (MacCheck.combine (b.party i).pending
      (nextStream n tape)).1) = b.defect n (nextStream n tape) := b.total_sigma _
  rw [nextStream] at hsum ⊢
  simp only [hsum]
  split
  · exact Gives.pure _ _ _
  · exact Gives.fail _ _ _

theorem Gives.check {b : Ledger μ} (hb : b.Sound n) (hne : b.pending ≠ []) (hn : n < 2 ^ 64)
    (tape : Nat → Tape) :
    Gives n (fun i => (MacCheck.check ⟨i, n⟩).start (b.party i)) tape
      (fun i => (.ok (), b.cleared.party i)) fun i => (tape i).tail.tail.tail := by
  have h := check_verdict hne hn tape
  rwa [if_pos (hb.defect_eq_zero _)] at h

end Check

end Beaver
