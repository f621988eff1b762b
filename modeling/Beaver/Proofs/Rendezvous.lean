import Mathlib.Logic.Function.Basic
import Mathlib.Logic.Relation
import Beaver.Player
import Beaver.Proofs.Programs
import Beaver.Proofs.WireRoundTrip

/-!
# Links that hold no messages

Parties make the same calls, one after the other, over links that cannot store
anything: a message is handed over, so that a send is over only together with the
receive it is meant for.  Any parties that can move may be the next to do so.

The key local facts are `Move.shared`, which says that a party can take part in at most
one move at a time, and `Move.elsewhere`, which says that a move stays possible while
other parties move.  So two different moves can be made in either order
(`Move.diamond`), and one run of the calls to their end decides about all runs.
-/

namespace Beaver.Rendezvous

open Function (update_of_ne update_self)
open List
open Function (update)
open Relation (ReflTransGen)

variable {ι : Type} {α : ι → Type}

/-- What a call gives a party: an entry for every party, in order. -/
def Reply (α : ι → Type) : Type := (t : ι) × List (Option (α t))

/-- A call that all parties make, with what each of them has to say.  The messages of
different calls may be of different types. -/
inductive Call (α : ι → Type) where
  | scatter (t : ι) (phase : String) (w : Wire (α t)) (message : (source target : Nat) → α t)
  | gather (t : ι) (phase : String) (w : Wire (α t)) (message : (source : Nat) → α t)
  | broadcast (t : ι) (phase : String) (w : Wire (α t)) (message : (source : Nat) → α t)

namespace Call

/-- What a party does in a call. -/
def run (p : Player) : Call α → Session Unit (Reply α)
  | scatter t phase w message => do
      let xs ← p.scatter phase w ((range p.parties).map (message p.me))
      pure ⟨t, xs⟩
  | gather t phase w message => do
      let xs ← p.gather phase w (message p.me)
      pure ⟨t, xs.map some⟩
  | broadcast t phase w message => do
      let xs ← p.broadcast phase w (message p.me)
      pure ⟨t, xs.map some⟩

/-- What party `i` should get: at index `k` what party `k` has addressed to it. -/
def replyTo (n i : Nat) : Call α → Reply α
  | scatter t _ _ message =>
    ⟨t, (range n).map fun k => if k = i then none else some (message k i)⟩
  | gather t _ _ message | broadcast t _ _ message =>
    ⟨t, (range n).map fun k => some (message k)⟩

/-- All messages of a call can be read again. -/
def Carried (n : Nat) : Call α → Prop
  | scatter _ _ w message => ∀ i < n, ∀ k < n, w.Carries (message i k)
  | gather _ _ w message | broadcast _ _ w message => ∀ i < n, w.Carries (message i)

end Call

/-- A party among its calls: the replies it has, the call it is in, and the calls it
still has to make. -/
structure Caller (α : ι → Type) where
  replies : List (Reply α)
  current : Option (Protocol (Except Failure (Reply α) × Unit))
  left : List (Call α)

namespace Caller

/-- A party goes on with a program. -/
def running (c : Caller α) (p : Protocol (Except Failure (Reply α) × Unit)) : Caller α :=
  { c with current := some p }

/-- What a party does by itself: it begins its next call, or takes the reply of the call
that is over. -/
def turn (n i : Nat) (c : Caller α) : Option (Caller α) :=
  match c.current, c.left with
  | none, call :: left => some ⟨c.replies, some ((call.run ⟨i, n⟩).start ()), left⟩
  | some (.done (.ok r, _)), left => some ⟨c.replies ++ [r], none, left⟩
  | _, _ => none

/-- A party has made all its calls. -/
def Finished (c : Caller α) : Prop :=
  c.current = none ∧ c.left = []

/-- A call of a party has failed. -/
def Failed (c : Caller α) : Prop :=
  ∃ e, c.current = some (.done (.error e, ()))

/-- A party has closed its links. -/
def Gone (c : Caller α) : Prop :=
  c.Finished ∨ c.Failed

/-- All of `n` parties have these calls to make. -/
def start (n : Nat) (calls : List (Call α)) (i : Nat) : Caller α :=
  ⟨[], none, if i < n then calls else []⟩

variable {c : Caller α}

theorem replies_turn {n i : Nat} {c' : Caller α} (h : c.turn n i = some c') :
    c.replies <+: c'.replies := by
  unfold turn at h
  split at h
  · obtain rfl := Option.some.inj h
    exact prefix_rfl
  · obtain rfl := Option.some.inj h
    exact prefix_append _ _
  · cases h

theorem Gone.turn_eq_none (h : c.Gone) (n i : Nat) : c.turn n i = none := by
  rcases h with ⟨hcurrent, hleft⟩ | ⟨e, hcurrent⟩
  · simp [turn, hcurrent, hleft]
  · simp [turn, hcurrent]

theorem Gone.not_send (h : c.Gone) (j : Nat) (m : Bytes)
    (next : Protocol (Except Failure (Reply α) × Unit)) : c.current ≠ some (.send j m next) := by
  rcases h with ⟨hcurrent, -⟩ | ⟨e, hcurrent⟩
  · simp [hcurrent]
  · simp [hcurrent]

theorem Gone.not_recv (h : c.Gone) (peers : List Nat)
    (next : Fin peers.length → Option Bytes → Protocol (Except Failure (Reply α) × Unit)) :
    c.current ≠ some (.recv peers next) := by
  rcases h with ⟨hcurrent, -⟩ | ⟨e, hcurrent⟩
  · simp [hcurrent]
  · simp [hcurrent]

/-- A party that can move by itself does not communicate. -/
theorem turn_of_send {j : Nat} {m : Bytes} {next : Protocol (Except Failure (Reply α) × Unit)}
    (h : c.current = some (.send j m next)) (n i : Nat) : c.turn n i = none := by
  simp [turn, h]

theorem turn_of_recv {peers : List Nat}
    {next : Fin peers.length → Option Bytes → Protocol (Except Failure (Reply α) × Unit)}
    (h : c.current = some (.recv peers next)) (n i : Nat) : c.turn n i = none := by
  simp [turn, h]

end Caller

/-- A move of the parties in `who`.  When a party has closed its links, those who wait
for it get nothing. -/
inductive Move (n : Nat) (s : Nat → Caller α) : (who : List Nat) → (Nat → Caller α) → Prop
  | turn {i c} (h : (s i).turn n i = some c) : Move n s [i] (update s i c)
  | talk {i j m next next'} (hi : (s i).current = some (.send j m next))
      (hj : (s j).current = some (.recv [i] next')) :
      Move n s [i, j]
        (update (update s i ((s i).running next)) j ((s j).running (next' 0 (some m))))
  | hangUp {i j next'} (hj : (s j).current = some (.recv [i] next')) (hi : (s i).Gone) :
      Move n s [j] (update s j ((s j).running (next' 0 none)))

/-- Some parties make a move. -/
def Step (n : Nat) (s s' : Nat → Caller α) : Prop :=
  ∃ who, Move n s who s'

namespace Move

variable {n : Nat} {s s' s'' : Nat → Caller α} {who who' : List Nat} {a : Nat}

/-- Only the movers change. -/
theorem other (h : Move n s who s') (ha : a ∉ who) : s' a = s a := by
  cases h with
  | turn h => exact update_of_ne (by simpa using ha) _ _
  | talk hi hj =>
    rw [mem_cons, mem_singleton, not_or] at ha
    rw [update_of_ne ha.2, update_of_ne ha.1]
  | hangUp hj hi => exact update_of_ne (by simpa using ha) _ _

/-- A party that has closed its links does not move. -/
theorem not_gone (h : Move n s who s') (ha : a ∈ who) : ¬ (s a).Gone := by
  intro hgone
  cases h with
  | turn h =>
    obtain rfl := mem_singleton.mp ha
    simp [hgone.turn_eq_none] at h
  | talk hi hj =>
    rw [mem_cons, mem_singleton] at ha
    rcases ha with rfl | rfl
    · exact hgone.not_send _ _ _ hi
    · exact hgone.not_recv _ _ hj
  | hangUp hj hi =>
    obtain rfl := mem_singleton.mp ha
    exact hgone.not_recv _ _ hj

/-- Replies are never lost. -/
theorem replies_kept (h : Move n s who s') (a : Nat) : (s a).replies <+: (s' a).replies := by
  cases h with
  | @turn i c hturn =>
    by_cases ha : a = i
    · subst ha
      rw [update_self]
      exact Caller.replies_turn hturn
    · rw [update_of_ne ha]
  | @talk i j m next next' hi hj =>
    by_cases haj : a = j
    · subst haj
      rw [update_self]
      exact prefix_rfl
    · rw [update_of_ne haj]
      by_cases hai : a = i
      · subst hai
        rw [update_self]
        exact prefix_rfl
      · rw [update_of_ne hai]
  | @hangUp i j next' hj hi =>
    by_cases ha : a = j
    · subst ha
      rw [update_self]
      exact prefix_rfl
    · rw [update_of_ne ha]

/-- **A party has at most one move to take part in.** -/
theorem shared (h : Move n s who s') (h' : Move n s who' s'') (ha : a ∈ who) (ha' : a ∈ who') :
    s' = s'' := by
  cases h with
  | @turn i c hturn =>
    obtain rfl := mem_singleton.mp ha
    cases h' with
    | turn hturn' =>
      obtain rfl := mem_singleton.mp ha'
      rw [Option.some.inj (hturn.symm.trans hturn')]
    | talk hi hj =>
      rw [mem_cons, mem_singleton] at ha'
      rcases ha' with rfl | rfl
      · simp [Caller.turn_of_send hi] at hturn
      · simp [Caller.turn_of_recv hj] at hturn
    | hangUp hj hi =>
      obtain rfl := mem_singleton.mp ha'
      simp [Caller.turn_of_recv hj] at hturn
  | @talk i j m next next' hi hj =>
    rw [mem_cons, mem_singleton] at ha
    cases h' with
    | turn hturn =>
      obtain rfl := mem_singleton.mp ha'
      rcases ha with rfl | rfl
      · simp [Caller.turn_of_send hi] at hturn
      · simp [Caller.turn_of_recv hj] at hturn
    | @talk k l m' _ _ hk hl =>
      rw [mem_cons, mem_singleton] at ha'
      -- each end of a conversation names the other
      have hends : k = i ∧ l = j := by grind
      obtain ⟨rfl, rfl⟩ := hends
      have hsend := hi.symm.trans hk
      have hrecv := hj.symm.trans hl
      simp only [Option.some.injEq, Protocol.send.injEq, Protocol.recv.injEq, heq_eq_eq,
        true_and] at hsend hrecv
      obtain ⟨rfl, rfl⟩ := hsend
      rw [hrecv]
    | @hangUp k l _ hl hk =>
      obtain rfl := mem_singleton.mp ha'
      have hsender : k = i := by grind
      subst hsender
      exact absurd hi (hk.not_send j m next)
  | @hangUp i j next' hj hi =>
    obtain rfl := mem_singleton.mp ha
    cases h' with
    | turn hturn =>
      obtain rfl := mem_singleton.mp ha'
      simp [Caller.turn_of_recv hj] at hturn
    | @talk k l _ _ _ hk hl =>
      rw [mem_cons, mem_singleton] at ha'
      have hsender : i = k := by grind
      subst hsender
      exact absurd hk (hi.not_send _ _ _)
    | hangUp hl hk =>
      obtain rfl := mem_singleton.mp ha'
      have hrecv := hj.symm.trans hl
      simp only [Option.some.injEq, Protocol.recv.injEq, cons.injEq, and_true] at hrecv
      obtain ⟨rfl, hnext⟩ := hrecv
      rw [eq_of_heq hnext]

/-- **A move stays possible while others move.** -/
theorem elsewhere (h : Move n s who s') {t : Nat → Caller α} (hsame : ∀ a ∈ who, t a = s a)
    (hgone : ∀ a, (s a).Gone → t a = s a) :
    Move n t who fun a => if a ∈ who then s' a else t a := by
  cases h with
  | @turn i c hturn =>
    have hi : t i = s i := hsame i (by simp)
    have hafter : (fun a => if a ∈ [i] then update s i c a else t a) = update t i c := by
      funext a
      by_cases ha : a = i
      · simp [ha]
      · simp [ha]
    rw [hafter]
    exact .turn (hi ▸ hturn)
  | @talk i j m next next' hi hj =>
    have hti : t i = s i := hsame i (by simp)
    have htj : t j = s j := hsame j (by simp)
    have hafter : (fun a => if a ∈ [i, j] then update (update s i ((s i).running next)) j
        ((s j).running (next' 0 (some m))) a else t a)
        = update (update t i ((t i).running next)) j ((t j).running (next' 0 (some m))) := by
      funext a
      by_cases haj : a = j
      · simp [haj, htj]
      · by_cases hai : a = i
        · subst hai
          simp [haj, hti]
        · simp [haj, hai]
    rw [hafter]
    exact .talk (hti ▸ hi) (htj ▸ hj)
  | @hangUp i j next' hj hi =>
    have htj : t j = s j := hsame j (by simp)
    have hafter : (fun a => if a ∈ [j] then update s j ((s j).running (next' 0 none)) a else t a)
        = update t j ((t j).running (next' 0 none)) := by
      funext a
      by_cases ha : a = j
      · simp [ha, htj]
      · simp [ha]
    rw [hafter]
    exact .hangUp (htj ▸ hj) (hgone i hi ▸ hi)

/-- **Two moves can be made in either order.** -/
theorem diamond (h : Move n s who s') (h' : Move n s who' s'') :
    s' = s'' ∨ ∃ d, Move n s' who' d ∧ Move n s'' who d := by
  by_cases hmeet : ∃ a, a ∈ who ∧ a ∈ who'
  · obtain ⟨a, ha, ha'⟩ := hmeet
    exact Or.inl (h.shared h' ha ha')
  · have hapart : ∀ a ∈ who, a ∉ who' := fun a ha ha' => hmeet ⟨a, ha, ha'⟩
    refine Or.inr ⟨fun a => if a ∈ who' then s'' a else s' a, ?_, ?_⟩
    · refine h'.elsewhere (fun a ha => h.other fun hw => hapart a hw ha) ?_
      intro a hgone
      exact h.other fun hw => h.not_gone hw hgone
    · have hboth : (fun a => if a ∈ who' then s'' a else s' a)
          = fun a => if a ∈ who then s' a else s'' a := by
        funext a
        by_cases ha : a ∈ who
        · simp [ha, hapart a ha]
        · by_cases ha' : a ∈ who'
          · simp [ha, ha']
          · simp [ha, ha', h.other ha, h'.other ha']
      rw [hboth]
      refine h.elsewhere (fun a ha => h'.other (hapart a ha)) ?_
      intro a hgone
      exact h'.other fun hw => h'.not_gone hw hgone

end Move

namespace Step

variable {n : Nat} {s s' final : Nat → Caller α}

/-- **One run decides about all runs.**  If the calls can be brought to an end, they can
be brought to this end from every state that can be reached. -/
theorem reaches (hfinal : ∀ a, (final a).Gone) (hone : ReflTransGen (Step n) s final)
    (hrun : ReflTransGen (Step n) s s') : ReflTransGen (Step n) s' final := by
  have hdiamond : ∀ a b c : Nat → Caller α, Step n a b → Step n a c →
      ∃ d, Relation.ReflGen (Step n) b d ∧ ReflTransGen (Step n) c d := by
    intro a b c hab hac
    obtain ⟨who, hab⟩ := hab
    obtain ⟨who', hac⟩ := hac
    rcases hab.diamond hac with rfl | ⟨d, hbd, hcd⟩
    · exact ⟨b, .refl, .refl⟩
    · exact ⟨d, .single ⟨who', hbd⟩, .single ⟨who, hcd⟩⟩
  obtain ⟨d, hd, hd'⟩ := Relation.church_rosser hdiamond hrun hone
  rcases hd'.cases_head with rfl | ⟨e, hstep, -⟩
  · exact hd
  · obtain ⟨who, hmove⟩ := hstep
    cases who with
    | nil => cases hmove
    | cons a who => exact absurd (hfinal a) (hmove.not_gone mem_cons_self)

/-- Replies are never lost. -/
theorem replies_kept (h : ReflTransGen (Step n) s s') (a : Nat) :
    (s a).replies <+: (s' a).replies := by
  induction h with
  | refl => exact prefix_rfl
  | @tail t u _ hstep ih =>
    obtain ⟨who, hmove⟩ := hstep
    exact ih.trans (hmove.replies_kept a)

/-- A party that has closed its links stays as it is. -/
theorem gone_stays (h : ReflTransGen (Step n) s s') {a : Nat} (ha : (s a).Gone) : s' a = s a := by
  induction h with
  | refl => rfl
  | tail _ hstep ih =>
    obtain ⟨who, hmove⟩ := hstep
    rw [← ih]
    exact hmove.other fun hmem => hmove.not_gone hmem (ih ▸ ha)

end Step

end Beaver.Rendezvous
