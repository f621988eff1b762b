import Mathlib
import Beaver.Proofs.Ring.Fields
import Beaver.Proofs.TagCheck

/-!
# What a check of tags decides

The parties open one list of shares after the other and check the tags at the end.
Whatever the shares and their tags are, everybody gets the sums of the shares, and
everybody gets the same verdict: it depends on one number, the errors of all tags combined
with the tossed coefficients (`MacCheck.check_decides`).  In a field a single wrong tag is
found out unless its own coefficient is zero.
-/

namespace Beaver

open List hiding sum
open ShareRing

section Errors

variable {τ μ : Type} [ShareRing μ] [LawfulShareRing μ] [Lift τ μ] {n : Nat} {key : Nat → μ}

/-- How far the shares of a tag are from the key times the value. -/
def tagError (n : Nat) (key : Nat → μ) (x : Nat → Share τ μ) : μ :=
  total n (fun i => (x i).tag) - total n key * liftedValue n x

variable {x : Nat → Share τ μ} {shares : List (Nat → Share τ μ)}

theorem tagError_eq_zero_iff : tagError n key x = 0 ↔ Authentic n key x :=
  sub_eq_zero

/-- The errors of all tags, combined with coefficients. -/
def combinedError (n : Nat) (key : Nat → μ) (coefficients : List μ) (shares : List (Nat → Share τ μ)) :
    μ :=
  sum ((coefficients.zip shares).map fun q => q.1 * tagError n key q.2)

theorem combinedError_of_authentic (h : ∀ x ∈ shares, Authentic n key x) (coefficients : List μ) :
    combinedError n key coefficients shares = 0 := by
  rw [combinedError, sum_eq_sum]
  refine sum_eq_zero fun v hv => ?_
  obtain ⟨q, hq, rfl⟩ := mem_map.mp hv
  rw [tagError_eq_zero_iff.mpr (h q.2 (of_mem_zip hq).2), mul_zero]

/-- **One wrong tag** leaves its own error, times its coefficient. -/
theorem combinedError_of_single {coefficients : List μ}
    (hlength : coefficients.length = shares.length) {j : Nat} (hx : shares[j]? = some x)
    (hothers : ∀ k y, k ≠ j → shares[k]? = some y → Authentic n key y) :
    combinedError n key coefficients shares = coefficients[j]?.getD 0 * tagError n key x := by
  rw [combinedError, sum_eq_sum]
  induction shares generalizing coefficients j with
  | nil => simp at hx
  | cons y shares ih =>
    obtain ⟨c, coefficients, rfl⟩ := exists_cons_of_length_eq_add_one hlength
    have hlength : coefficients.length = shares.length := by simpa using hlength
    rw [zip_cons_cons, map_cons, sum_cons]
    cases j with
    | zero =>
      obtain rfl : y = x := by simpa using hx
      have hrest : ∀ z ∈ shares, Authentic n key z := by
        intro z hz
        obtain ⟨k, hk⟩ := mem_iff_getElem?.mp hz
        exact hothers (k + 1) z (by omega) hk
      rw [← sum_eq_sum, ← combinedError, combinedError_of_authentic hrest, add_zero]
      rfl
    | succ j =>
      rw [tagError_eq_zero_iff.mpr (hothers 0 y (by omega) rfl), mul_zero, zero_add]
      exact ih hlength hx fun k z hk hz => hothers (k + 1) z (by omega) hz

/-- What the ledger of opened shares lacks is the combined error. -/
theorem Ledger.defect_opened (shares : List (Nat → Share τ μ)) (s : CoinStream) :
    ((⟨key, []⟩ : Ledger μ).opened n shares).defect n s
      = combinedError n key (samples shares.length s).1 shares := by
  rw [defect, combinedError, sum_eq_sum, weighted]
  simp only [opened, nil_append, length_map, zip_map_left, map_map]
  rw [← zip_swap, map_map]
  rfl

end Errors

namespace MacCheck

section Steps

variable {τ μ : Type} [ShareRing τ] [ShareRing μ] [Lift τ μ]

/-- Opens one list of shares after the other, each for its own purpose, and then checks
the tags of all of them. -/
def openAndCheck (p : Player) (calls : List (String × List (Share τ μ))) :
    Session (MacCheck μ) (List (List τ) × Except Failure Unit) := do
  let opened ← calls.mapM fun call => openShares p call.1 call.2
  let verdict ← Session.attempt (check p)
  pure (opened, verdict)

/-- What a party has of the shares in each call. -/
def callsOf (calls : List (String × List (Nat → Share τ μ))) (i : Nat) :
    List (String × List (Share τ μ)) :=
  calls.map fun call => (call.1, call.2.map (· i))

variable [LawfulShareRing τ] {n : Nat}

/-- **All calls give the sums of the shares**, and the ledger grows by all of them. -/
theorem gives_calls {calls : List (String × List (Nat → Share τ μ))}
    (hcalls : ∀ call ∈ calls, call.2.length < 2 ^ 64) (b : Ledger μ) (tape : Nat → Tape) :
    Gives n (fun i => ((callsOf calls i).mapM fun call =>
        openShares ⟨i, n⟩ call.1 call.2).start (b.party i)) tape
      (fun i => (.ok (calls.map fun call => call.2.map (sharedValue n)),
        (b.opened n (calls.flatMap (·.2))).party i)) tape := by
  induction calls generalizing b with
  | nil =>
    refine (Gives.done _ _).congr fun i _ => ?_
    simp [callsOf, Ledger.opened]
  | cons call calls ih =>
    simp only [callsOf, map_cons, mapM_cons, flatMap_cons, Ledger.opened_append]
    refine Gives.andThen (Gives.openShares (hcalls call mem_cons_self) call.1 b tape) ?_
    refine Gives.andThen (ih (fun c hc => hcalls c (mem_cons_of_mem call hc))
      (b.opened n call.2)) ?_
    exact Gives.pure _ _ _

variable [LawfulShareRing μ]

/-- The check gives the same verdict everywhere, also when there is nothing to check. -/
theorem gives_verdict (hn : n < 2 ^ 64) (b : Ledger μ) (tape : Nat → Tape) :
    ∃ tape', Gives n (fun i => (check ⟨i, n⟩).start (b.party i)) tape
      (fun i => (if b.defect n (Gives.nextStream n tape) = 0 then .ok ()
        else .error (.error (.cheat .tag)), ofKey (b.key i))) tape' := by
  by_cases hne : b.pending = []
  · refine ⟨tape, (Gives.done _ _).congr fun i _ => ?_⟩
    have hzero : b.defect n (Gives.nextStream n tape) = 0 := by
      simp [Ledger.defect, Ledger.weighted, hne]
    have hempty : (b.party i).pending = [] := by simp [Ledger.party, hne]
    rw [if_pos hzero, check, Session.start_bind_of_done (Session.start_get _), hempty,
      Session.start_bind_of_done (Session.start_modify _ _)]
    rfl
  · exact ⟨_, Gives.check_verdict hne hn tape⟩

end Steps

/-- **The check decides whether the combined error is zero.**  Parties with shares `key i`
of a key open shares with arbitrary values and tags in any number of calls.  Everybody gets
the sums of the values, and everybody gets the same verdict: the tags pass if and only if
the errors of all tags, combined with the tossed coefficients, are zero.  So right tags
always pass, and in a field a single wrong tag is found out if its coefficient is not zero. -/
theorem check_decides {d : Domain} {coins : List Coins} (hparties : 0 < coins.length)
    (hbound : coins.length < 2 ^ 64) (key : Nat → d.tag.Carrier)
    {calls : List (String × List (Nat → Share d.value.Carrier d.tag.Carrier))}
    (hcalls : ∀ call ∈ calls, call.2.length < 2 ^ 64) :
    let n := coins.length
    let shares := calls.flatMap (·.2)
    let chi : List d.tag.Carrier := (samples shares.length (CoinToss.streamAfter coins 0)).1
    let results := ((Network.ofCoins coins).runOn .honest ((range n).map fun i =>
      (openAndCheck ⟨i, n⟩ (callsOf calls i)).start (ofKey (key i)))).1
    let agreed (verdict : Except Failure Unit) := (range n).map fun i =>
      some (.ok (calls.map fun call => call.2.map (sharedValue n), verdict), ofKey (key i))
    results = agreed (if combinedError n key chi shares = 0 then .ok ()
        else .error (.error (.cheat .tag))) ∧
      ((∀ x ∈ shares, Authentic n key x) → results = agreed (.ok ())) ∧
      (d.tag.has .invert = true → ∀ (j : Nat) x, shares[j]? = some x → ¬ Authentic n key x →
        (∀ k y, k ≠ j → shares[k]? = some y → Authentic n key y) → chi[j]?.getD 0 ≠ 0 →
        results = agreed (.error (.error (.cheat .tag)))) := by
  intro n shares chi results agreed
  have hdecided : results = agreed (if combinedError n key chi shares = 0 then .ok ()
      else .error (.error (.cheat .tag))) := by
    obtain ⟨tape', hverdict⟩ := gives_verdict hbound ((⟨key, []⟩ : Ledger _).opened n shares)
      (Coins.tapes coins)
    have hstream : Gives.nextStream coins.length (Coins.tapes coins)
        = CoinToss.streamAfter coins 0 := Gives.nextStream_tapes coins 0
    rw [Ledger.defect_opened, hstream] at hverdict
    exact Network.runOn_of_gives hparties (Gives.andThen
      (gives_calls hcalls ⟨key, []⟩ (Coins.tapes coins))
      (Gives.andThen (Gives.attempt hverdict) (Gives.pure _ _ _)))
  refine ⟨hdecided, fun hright => ?_, fun hfield j x hx hwrong hothers hchi => ?_⟩
  · rw [hdecided, if_pos (combinedError_of_authentic hright chi)]
  · have hne : combinedError n key chi shares ≠ 0 := by
      rw [combinedError_of_single (length_samples _ _) hx hothers]
      intro hzero
      rcases RingName.mul_eq_zero hfield hzero with h | h
      · exact hchi h
      · exact hwrong (tagError_eq_zero_iff.mp h)
    rw [hdecided, if_neg hne]

/-- Shares of `6` with right tags under the key `3`, and of `3` with wrong ones. -/
def rightAndWrong : List (String × List (Nat → Share Mersenne61 Mersenne61)) :=
  [("first", [fun i => ⟨Residue.ofNat (i + 1), Residue.ofNat (3 * i + 3)⟩]),
    ("second", []), ("third", [fun i => ⟨Residue.ofNat i, Residue.ofNat i⟩])]

/-- Three parties open a right and a wrong value and find out. -/
theorem check_decides_wrong :
    ((Network.ofCoins [.zeros, .zeros, .zeros]).runOn .honest ((range 3).map fun i =>
      (openAndCheck ⟨i, 3⟩ (callsOf rightAndWrong i)).start (ofKey 1))).1
      = (range 3).map fun _ => some (.ok ([[Residue.ofNat 6], [], [Residue.ofNat 3]],
          .error (.error (.cheat .tag))), ofKey 1) := by
  have hdecides := @check_decides (.same .mersenne61) [.zeros, .zeros, .zeros] (by decide)
    (by decide) (fun _ => 1) rightAndWrong (by decide)
  have hopened : rightAndWrong.map (fun call => call.2.map (sharedValue 3))
      = [[Residue.ofNat 6], [], [Residue.ofNat 3]] := by decide
  rw [← hopened]
  refine hdecides.2.2 rfl 1 _ rfl ?_ ?_ ?_
  · unfold Authentic
    decide
  · intro k y hk hy
    match k with
    | 0 =>
      obtain rfl := Option.some.inj hy
      unfold Authentic
      decide
    | k + 2 => simp [rightAndWrong] at hy
  · decide +kernel

end MacCheck

end Beaver
