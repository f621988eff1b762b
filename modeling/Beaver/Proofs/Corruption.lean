import Mathlib.Data.Finset.Basic
import Mathlib.Logic.Relation
import Beaver.Proofs.Histories

/-!
# Honest parties among corrupted ones

Some parties follow their programs, all others do what they like.  Of a run only the
honest parties' programs and histories are kept.  Between two honest parties messages
arrive unchanged and in order, and a link is closed only by the party at the other end;
from a corrupted party anything can arrive at any time, and different things at
different places.  Any honest party that can move may be the next to do so.
-/

namespace Beaver

open List
open Function (update)
open Relation (ReflTransGen)

variable {α : Type}

/-- **Two programs that meet still meet after a step of one of them**, if what it gets is
what is on its way. -/
theorem Meets.does {β : Type} {i j : Nat} {R : α → β → Prop} {now p : Protocol α}
    {q : Protocol β} {xs ys : List Bytes} {e : Event}
    (h : ∀ u v, Meets i j (fun a b _ _ => R a b) now q xs ys u v) (hdoes : now.Does e p)
    (hsome : ∀ m, e = .got j (some m) → ys.head? = some m)
    (hnone : e = .got j none → ys = [] ∧ q.isDone = true) :
    (∀ u v, Meets i j (fun a b _ _ => R a b) p q (xs ++ sentTo j [e])
      (ys.drop (gotFrom j [e]).length) u v) ∧ ∀ k, e ≠ .closed k := by
  let zeros : Tape := ⟨fun _ n => replicate n 0, fun _ _ => length_replicate⟩
  cases hdoes with
  | @send peer m next =>
    refine ⟨fun u v => ?_, by simp⟩
    obtain ⟨rfl, hnext⟩ := (h u v).send_inv
    simpa using hnext
  | @recv peers next a m =>
    obtain rfl := (h zeros zeros).recv_peers
    obtain rfl : a = ⟨0, Nat.zero_lt_one⟩ := by
      apply Fin.ext
      have ha : a.1 < 1 := a.2
      show a.1 = 0
      omega
    refine ⟨fun u v => ?_, by simp⟩
    cases m with
    | some m =>
      obtain ⟨rest, rfl⟩ : ∃ rest, ys = m :: rest := by
        cases ys with
        | nil => cases hsome m rfl
        | cons m' rest => exact ⟨rest, by rw [Option.some.inj (hsome m rfl)]⟩
      simpa using (h u v).recv_inv
    | none =>
      -- the other end would have left it waiting
      obtain ⟨rfl, hdone⟩ := hnone rfl
      cases q with
      | done b => exact absurd (h u v).symm Meets.not_abandoned
      | send _ _ _ => cases hdone
      | recv _ _ => cases hdone
      | draw _ _ => cases hdone
      | close _ _ => cases hdone
  | @draw n next bs hlength =>
    refine ⟨fun u v => ?_, by simp⟩
    have hnext := (h (u.cons bs) v).draw_inv
    rw [← hlength, Tape.next_cons, Tape.tail_cons] at hnext
    simpa using hnext
  | close => exact absurd (h zeros zeros) Meets.not_close

/-- What is left to do for every party, and what has happened to it. -/
structure Scene (α : Type) where
  program : Nat → Protocol α
  history : Nat → List Event

namespace Scene

/-- The messages that party `i` has sent to party `k`. -/
def sent (s : Scene α) (i k : Nat) : List Bytes :=
  sentTo k (s.history i)

/-- The messages from party `i` that have come to party `k`. -/
def taken (s : Scene α) (i k : Nat) : List Bytes :=
  gotFrom i (s.history k)

/-- Party `i` has closed its link to party `k`. -/
def Closed (s : Scene α) (i k : Nat) : Prop :=
  (s.program i).isDone = true ∨ Event.closed k ∈ s.history i

instance decidableClosed (s : Scene α) (i k : Nat) : Decidable (s.Closed i k) :=
  inferInstanceAs (Decidable (_ ∨ _))

/-- Whether the links let an event happen to party `i`.  What comes from an honest party
is the next message that it has sent. -/
def Admits (honest : Finset Nat) (s : Scene α) (i : Nat) : Event → Prop
  | .got k (some m) => k ∈ honest → (s.sent k i)[(s.taken k i).length]? = some m
  | .got k none => k ∈ honest → s.Closed k i ∧ s.taken k i = s.sent k i
  | _ => True

instance decidableAdmits (honest : Finset Nat) (s : Scene α) (i : Nat) :
    (e : Event) → Decidable (s.Admits honest i e)
  | .got _ (some _) => inferInstanceAs (Decidable (_ → _))
  | .got _ none => inferInstanceAs (Decidable (_ → _))
  | .sent .. | .drew _ | .closed _ => inferInstanceAs (Decidable True)

/-- An event has happened to party `i`, which leaves it a program. -/
def act (s : Scene α) (i : Nat) (e : Event) (p : Protocol α) : Scene α :=
  ⟨update s.program i p, update s.history i (s.history i ++ [e])⟩

/-- An honest party makes a step. -/
def Step (honest : Finset Nat) (s s' : Scene α) : Prop :=
  ∃ i ∈ honest, ∃ e p, (s.program i).Does e p ∧ s.Admits honest i e ∧ s' = s.act i e p

/-- A run of the honest parties from their programs leads here. -/
def Reaches (honest : Finset Nat) (p : Nat → Protocol α) (s : Scene α) : Prop :=
  ReflTransGen (Step honest) ⟨p, fun _ => []⟩ s

/-- The scene after these events, if all of them can happen. -/
def run? (honest : Finset Nat) (s : Scene α) : List (Nat × Event) → Option (Scene α)
  | [] => some s
  | (i, e) :: es =>
    if i ∈ honest ∧ s.Admits honest i e then
      match (s.program i).after? e with
      | some p => run? honest (s.act i e p) es
      | none => none
    else none

variable {honest : Finset Nat} {es : List (Nat × Event)} {p : Nat → Protocol α}

theorem steps_of_run? {s s' : Scene α} (h : run? honest s es = some s') :
    ReflTransGen (Step honest) s s' := by
  induction es generalizing s with
  | nil =>
    obtain rfl := Option.some.inj h
    exact .refl
  | cons ie es ih =>
    obtain ⟨i, e⟩ := ie
    unfold run? at h
    split at h
    case isFalse => cases h
    case isTrue hcan =>
      split at h
      case h_2 => cases h
      case h_1 p hafter =>
        have hstep : Step honest s (s.act i e p) :=
          ⟨i, hcan.1, e, p, Protocol.does_of_after? hafter, hcan.2, rfl⟩
        exact .head hstep (ih h)

/-- A run that can be checked leads somewhere. -/
theorem exists_of_run? {check : Scene α → Bool}
    (h : (run? honest ⟨p, fun _ => []⟩ es).any check = true) :
    ∃ s : Scene α, s.Reaches honest p ∧ check s = true := by
  cases hrun : run? honest ⟨p, fun _ => []⟩ es with
  | none =>
    rw [hrun] at h
    cases h
  | some s =>
    rw [hrun] at h
    exact ⟨s, steps_of_run? hrun, h⟩

namespace Reaches

variable {honest : Finset Nat} {p : Nat → Protocol α} {s : Scene α}

/-- Every party has followed its program. -/
theorem follows (h : Reaches honest p s) (i : Nat) :
    (p i).Follows (s.history i) (s.program i) := by
  induction h with
  | refl => exact .nil
  | @tail s s' _ hstep ih =>
    obtain ⟨j, -, e, q, hdoes, -, rfl⟩ := hstep
    by_cases hij : i = j
    · subst hij
      simpa [act] using ih.snoc hdoes
    · simpa [act, hij] using ih

/-- **Links between honest parties lose and change nothing.** -/
theorem taken_of_sent (h : Reaches honest p s) {i : Nat} (hi : i ∈ honest) (k : Nat) :
    s.taken i k <+: s.sent i k := by
  induction h with
  | refl => exact prefix_rfl
  | @tail s s' _ hstep ih =>
    obtain ⟨j, -, e, q, -, hadmits, rfl⟩ := hstep
    -- sending only adds at the end
    have hsent : s.sent i k <+: (s.act j e q).sent i k := by
      by_cases hij : i = j
      · subst hij
        simp [sent, act]
      · simp [sent, act, hij]
    by_cases hkj : k = j
    · subst hkj
      have htaken : (s.act k e q).taken i k = s.taken i k ++ gotFrom i [e] := by
        simp [taken, act]
      rw [htaken]
      cases e with
      | got peer m =>
        cases m with
        | none => simpa using ih.trans hsent
        | some m =>
          by_cases hpeer : peer = i
          · subst hpeer
            have hnext := hadmits hi
            have hone : s.taken peer k ++ [m] <+: s.sent peer k := by
              rw [prefix_iff_eq_take] at ih ⊢
              rw [length_append, length_singleton, take_add_one, hnext, ← ih]
              rfl
            simpa using hone.trans hsent
          · simpa [hpeer] using ih.trans hsent
      | sent peer m => simpa using ih.trans hsent
      | drew bs => simpa using ih.trans hsent
      | closed peer => simpa using ih.trans hsent
    · have htaken : (s.act j e q).taken i k = s.taken i k := by
        simp [taken, act, hkj]
      rw [htaken]
      exact ih.trans hsent

/-- What a program says of its events holds of the party's history. -/
theorem traces (h : Reaches honest p s) {i : Nat} {mid : List Event → Prop}
    {post : α → List Event → Prop} (hp : (p i).Traces mid post) :
    mid (s.history i) ∧ ∀ a, s.program i = .done a → post a (s.history i) :=
  hp _ _ (h.follows i)

end Reaches

/-- What is on its way from party `i` to party `k`. -/
def pending (s : Scene α) (i k : Nat) : List Bytes :=
  (s.sent i k).drop (s.taken i k).length

/-- The programs of two honest parties come to an end together, with results as `R` says,
whatever they draw, and none of the two has closed a link. -/
structure Meeting (s : Scene α) (i j : Nat) (R : α → α → Prop) : Prop where
  meets : ∀ u v, Meets i j (fun a b _ _ => R a b) (s.program i) (s.program j) (s.pending i j)
    (s.pending j i) u v
  left_open : ∀ k, Event.closed k ∉ s.history i
  right_open : ∀ k, Event.closed k ∉ s.history j

namespace Meeting

variable {honest : Finset Nat} {s : Scene α} {i j k : Nat} {R : α → α → Prop}

theorem symm (h : s.Meeting i j R) : s.Meeting j i fun b a => R a b :=
  ⟨fun u v => (h.meets v u).symm, h.right_open, h.left_open⟩

/-- What others do does not matter. -/
theorem other (h : s.Meeting i j R) (hi : k ≠ i) (hj : k ≠ j) (e : Event) (p : Protocol α) :
    (s.act k e p).Meeting i j R := by
  have hprogram : ∀ {a}, k ≠ a → (s.act k e p).program a = s.program a :=
    fun ha => Function.update_of_ne (Ne.symm ha) _ _
  have hhistory : ∀ {a}, k ≠ a → (s.act k e p).history a = s.history a :=
    fun ha => Function.update_of_ne (Ne.symm ha) _ _
  refine ⟨?_, ?_, ?_⟩
  · simpa only [pending, sent, taken, hprogram hi, hprogram hj, hhistory hi, hhistory hj]
      using h.meets
  · simpa only [hhistory hi] using h.left_open
  · simpa only [hhistory hj] using h.right_open

/-- **One of the two makes a step.** -/
theorem step (h : s.Meeting i j R) (hij : i ≠ j) (hj : j ∈ honest)
    (htaken : s.taken i j <+: s.sent i j) {e : Event} {p : Protocol α} (hdoes : (s.program i).Does e p)
    (hadmits : s.Admits honest i e) : (s.act i e p).Meeting i j R := by
  have hprogram : (s.act i e p).program i = p := by simp [act]
  have hprogram' : (s.act i e p).program j = s.program j :=
    Function.update_of_ne (Ne.symm hij) _ _
  have hhistory : (s.act i e p).history i = s.history i ++ [e] := by simp [act]
  have hhistory' : (s.act i e p).history j = s.history j :=
    Function.update_of_ne (Ne.symm hij) _ _
  have hpending : (s.act i e p).pending i j = s.pending i j ++ sentTo j [e] := by
    simp only [pending, sent, taken, hhistory, hhistory', sentTo_append]
    exact drop_append_of_le_length htaken.length_le
  have hpending' : (s.act i e p).pending j i = (s.pending j i).drop (gotFrom j [e]).length := by
    simp only [pending, sent, taken, hhistory, hhistory', gotFrom_append, length_append,
      drop_drop]
  have hsome : ∀ m, e = .got j (some m) → (s.pending j i).head? = some m := by
    intro m he
    subst he
    rw [pending, head?_drop]
    exact hadmits hj
  have hnone : e = .got j none → s.pending j i = [] ∧ (s.program j).isDone = true := by
    intro he
    subst he
    obtain ⟨hclosed, hall⟩ := hadmits hj
    refine ⟨by rw [pending, hall, drop_length], ?_⟩
    exact hclosed.resolve_right (h.right_open i)
  obtain ⟨hmeets, hopen⟩ := Meets.does h.meets hdoes hsome hnone
  refine ⟨?_, ?_, ?_⟩
  · rw [hprogram, hprogram', hpending, hpending']
    exact hmeets
  · intro k hk
    rw [hhistory, mem_append, mem_singleton] at hk
    exact hk.elim (h.left_open k) fun heq => hopen k heq.symm
  · rw [hhistory']
    exact h.right_open

end Meeting

/-- **Two honest parties among corrupted ones.**  If their programs come to an end
together whatever they draw, then they still do after any run. -/
theorem Reaches.meeting {s : Scene α} {i j : Nat} {R : α → α → Prop} (h : Reaches honest p s)
    (hij : i ≠ j) (hi : i ∈ honest) (hj : j ∈ honest)
    (hmeets : ∀ u v, Meets i j (fun a b _ _ => R a b) (p i) (p j) [] [] u v) : s.Meeting i j R := by
  induction h with
  | refl => exact ⟨hmeets, by simp, by simp⟩
  | @tail s s' hbefore hstep ih =>
    obtain ⟨k, -, e, q, hdoes, hadmits, rfl⟩ := hstep
    by_cases hki : k = i
    · subst hki
      exact ih.step hij hj (Reaches.taken_of_sent hbefore hi j) hdoes hadmits
    · by_cases hkj : k = j
      · subst hkj
        have hlink := Reaches.taken_of_sent hbefore hj i
        exact (ih.symm.step (Ne.symm hij) hi hlink hdoes hadmits).symm
      · exact ih.other hki hkj e q

end Scene

end Beaver
