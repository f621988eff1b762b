import Mathlib.Logic.Function.Basic
import Beaver.Proofs.Meeting

/-!
# Every order of steps

The parties of a run, the messages on their way and the private randomness form a
*world*.  Any party that can move may be the next to do so.  A world *settles* if
every run from it comes to an end in which all parties are done and the results are
as they should be, and in which nobody ever waits for a party that has left.

The key local fact is `Moves.comm`: the moves of two different parties can be made
in either order.  So a party that has no choice may as well move first
(`Settles.of_sole`), and to show that a world settles it is enough to follow one
convenient order.
-/

namespace Beaver

open Function (update)

variable {α : Type}

/-- The programs of all parties, the messages on their way by source and target, and
the private randomness. -/
@[ext]
structure World (α : Type) where
  program : Nat → Protocol α
  flight : Nat × Nat → List Bytes
  tape : Nat → Tape

namespace World

/-- Party `i` has sent a message. -/
def post (w : World α) (i j : Nat) (m : Bytes) (next : Protocol α) : World α where
  program := update w.program i next
  flight := update w.flight (i, j) (w.flight (i, j) ++ [m])
  tape := w.tape

/-- Party `i` has taken a message from `j`, after which `rest` is on its way. -/
def take (w : World α) (i j : Nat) (rest : List Bytes) (next : Protocol α) : World α where
  program := update w.program i next
  flight := update w.flight (j, i) rest
  tape := w.tape

/-- Party `i` has drawn random bytes. -/
def drawn (w : World α) (i : Nat) (next : Protocol α) : World α where
  program := update w.program i next
  flight := w.flight
  tape := update w.tape i (w.tape i).tail

end World

/-- Party `i` makes a step. -/
inductive Moves (i : Nat) : World α → World α → Prop
  | send {w j m next} (hp : w.program i = .send j m next) : Moves i w (w.post i j m next)
  | recv {w peers next j m rest} (k : Fin peers.length) (hp : w.program i = .recv peers next)
      (hj : peers.get k = j) (hm : w.flight (j, i) = m :: rest) :
      Moves i w (w.take i j rest (next k (some m)))
  | draw {w n next} (hp : w.program i = .draw n next) :
      Moves i w (w.drawn i (next ((w.tape i).next n)))

/-- What a step of one party amounts to: the program that is left, the messages sent to
each target, the number of messages taken from each source, and the randomness left. -/
structure Turn (α : Type) where
  next : Protocol α
  sent : Nat → List Bytes
  taken : Nat → Nat
  tape : Tape

/-- The world after a turn of party `i`. -/
def World.turn (w : World α) (i : Nat) (e : Turn α) : World α where
  program := update w.program i e.next
  flight key :=
    (if key.2 = i then (w.flight key).drop (e.taken key.1) else w.flight key)
      ++ if key.1 = i then e.sent key.2 else []
  tape := update w.tape i e.tape

/-- Turns of two parties can be taken in either order. -/
theorem World.turn_comm {w : World α} {i k : Nat} {e f : Turn α} (hik : i ≠ k)
    (he : ∀ j, e.taken j ≤ (w.flight (j, i)).length)
    (hf : ∀ j, f.taken j ≤ (w.flight (j, k)).length) :
    (w.turn i e).turn k f = (w.turn k f).turn i e := by
  ext1
  · exact Function.update_comm hik _ _ _
  · funext ⟨a, b⟩
    -- a pipe has one source and one target, so the two turns share at most one end each
    by_cases hbi : b = i
    · subst hbi
      have hbk : b ≠ k := hik
      have hle := he a
      by_cases hab : a = b
      · subst hab
        simp [World.turn, hbk]
      · by_cases hak : a = k
        · simp [World.turn, hbk, hak, Ne.symm hik, List.drop_append_of_le_length, hak ▸ hle]
        · simp [World.turn, hbk, hab, hak]
    · by_cases hbk : b = k
      · subst hbk
        have hle := hf a
        by_cases hab : a = b
        · subst hab
          simp [World.turn, hbi]
        · by_cases hai : a = i
          · simp [World.turn, hbi, hai, hik, List.drop_append_of_le_length, hai ▸ hle]
          · simp [World.turn, hbi, hab, hai]
      · by_cases hai : a = i
        · simp [World.turn, hbi, hbk, hai, hik]
        · simp [World.turn, hbi, hbk, hai]
  · exact Function.update_comm hik _ _ _

section Turns

variable {w : World α} {i j : Nat} {next : Protocol α} {s : Tape}

theorem World.post_eq_turn {m : Bytes} (htape : w.tape i = s) :
    w.post i j m next = w.turn i ⟨next, fun b => if b = j then [m] else [], fun _ => 0, s⟩ := by
  ext1
  · rfl
  · funext ⟨a, b⟩
    by_cases ha : a = i
    · by_cases hb : b = j
      · simp [World.post, World.turn, ha, hb]
      · simp [World.post, World.turn, ha, hb]
    · simp [World.post, World.turn, ha]
  · simp [World.post, World.turn, ← htape]

theorem World.take_eq_turn (htape : w.tape i = s) {m : Bytes} {rest : List Bytes}
    (hm : w.flight (j, i) = m :: rest) :
    w.take i j rest next = w.turn i ⟨next, fun _ => [], fun a => if a = j then 1 else 0, s⟩ := by
  ext1
  · rfl
  · funext ⟨a, b⟩
    by_cases hb : b = i
    · by_cases ha : a = j
      · simp [World.take, World.turn, ha, hb, hm]
      · simp [World.take, World.turn, ha, hb]
    · simp [World.take, World.turn, hb]
  · simp [World.take, World.turn, ← htape]

theorem World.drawn_eq_turn (htape : w.tape i = s) :
    w.drawn i next = w.turn i ⟨next, fun _ => [], fun _ => 0, s.tail⟩ := by
  ext1
  · rfl
  · funext ⟨a, b⟩
    simp [World.drawn, World.turn]
  · simp [World.drawn, World.turn, htape]

end Turns

namespace Moves

variable {i k : Nat} {w w₁ w₂ : World α}

/-- **A move is a turn**, and the same turn can be taken in every world that looks the
same to the mover, but for more messages at the end of its queues. -/
theorem as_turn (h : Moves i w w₁) :
    ∃ e : Turn α, w₁ = w.turn i e ∧ (∀ j, e.taken j ≤ (w.flight (j, i)).length) ∧
      ∀ v : World α, v.program i = w.program i → v.tape i = w.tape i →
        (∀ j, w.flight (j, i) <+: v.flight (j, i)) → Moves i v (v.turn i e) := by
  cases h with
  | send hp =>
    refine ⟨_, World.post_eq_turn rfl, by simp, ?_⟩
    intro v hprogram htape _
    rw [← World.post_eq_turn htape]
    exact .send (hprogram.trans hp)
  | @recv peers next j m rest l hp hj hm =>
    refine ⟨_, World.take_eq_turn rfl hm, ?_, ?_⟩
    · intro a
      by_cases ha : a = j
      · simp [ha, hm]
      · simp [ha]
    · intro v hprogram htape hflight
      obtain ⟨ms, hms⟩ := hflight j
      rw [hm] at hms
      rw [← World.take_eq_turn htape hms.symm]
      exact .recv l (hprogram.trans hp) hj hms.symm
  | draw hp =>
    refine ⟨_, World.drawn_eq_turn rfl, by simp, ?_⟩
    intro v hprogram htape _
    rw [← World.drawn_eq_turn htape, ← htape]
    exact .draw (hprogram.trans hp)

/-- A move changes only the mover's program. -/
theorem program_other (h : Moves i w w₁) (hk : k ≠ i) : w₁.program k = w.program k := by
  obtain ⟨e, rfl, -, -⟩ := h.as_turn
  exact Function.update_of_ne hk _ _

/-- A move changes only the mover's randomness. -/
theorem tape_other (h : Moves i w w₁) (hk : k ≠ i) : w₁.tape k = w.tape k := by
  obtain ⟨e, rfl, -, -⟩ := h.as_turn
  exact Function.update_of_ne hk _ _

/-- What is on its way to a party that does not move is only added to. -/
theorem flight_to (h : Moves i w w₁) (hk : k ≠ i) (j : Nat) :
    w.flight (j, k) <+: w₁.flight (j, k) := by
  obtain ⟨e, rfl, -, -⟩ := h.as_turn
  simp [World.turn, hk]

/-- Nothing is added to what comes from a party that does not move. -/
theorem flight_between (h : Moves i w w₁) {j : Nat} (hj : j ≠ i) (hk : k ≠ i) :
    w₁.flight (j, k) = w.flight (j, k) := by
  obtain ⟨e, rfl, -, -⟩ := h.as_turn
  simp [World.turn, hk, hj]

/-- A party that is done does not move. -/
theorem not_done (h : Moves i w w₁) (a : α) : w.program i ≠ .done a := by
  cases h with
  | send hp => simp [hp]
  | recv l hp hj hm => simp [hp]
  | draw hp => simp [hp]

/-- **Moves of different parties can be made in either order.** -/
theorem comm (h₁ : Moves i w w₁) (h₂ : Moves k w w₂) (hik : i ≠ k) :
    ∃ w₃, Moves k w₁ w₃ ∧ Moves i w₂ w₃ := by
  have hprogram₁ := h₁.program_other (Ne.symm hik)
  have htape₁ := h₁.tape_other (Ne.symm hik)
  have hflight₁ := h₁.flight_to (Ne.symm hik)
  have hprogram₂ := h₂.program_other hik
  have htape₂ := h₂.tape_other hik
  have hflight₂ := h₂.flight_to hik
  obtain ⟨e, rfl, he, hagain₁⟩ := h₁.as_turn
  obtain ⟨f, rfl, hf, hagain₂⟩ := h₂.as_turn
  refine ⟨(w.turn i e).turn k f, hagain₂ _ hprogram₁ htape₁ hflight₁, ?_⟩
  rw [World.turn_comm hik he hf]
  exact hagain₁ _ hprogram₂ htape₂ hflight₂

end Moves

/-- A list of one peer has one position. -/
private theorem position_eq_zero {j : Nat} (l : Fin [j].length) : l = ⟨0, Nat.zero_lt_one⟩ := by
  have hl : l.val < 1 := l.isLt
  exact Fin.ext (Nat.lt_one_iff.mp hl)

/-- Party `i` makes a step that is the only one it can make. -/
inductive Sole (i : Nat) : World α → World α → Prop
  | send {w j m next} (hp : w.program i = .send j m next) : Sole i w (w.post i j m next)
  | recv {w j next m rest} (hp : w.program i = .recv [j] next)
      (hm : w.flight (j, i) = m :: rest) :
      Sole i w (w.take i j rest (next ⟨0, Nat.zero_lt_one⟩ (some m)))
  | draw {w n next} (hp : w.program i = .draw n next) :
      Sole i w (w.drawn i (next ((w.tape i).next n)))

namespace Sole

variable {i k : Nat} {w w₁ w₂ : World α}

theorem moves (h : Sole i w w₁) : Moves i w w₁ := by
  cases h with
  | send hp => exact .send hp
  | @recv j next m rest hp hm =>
    exact .recv (⟨0, Nat.zero_lt_one⟩ : Fin [j].length) hp rfl hm
  | draw hp => exact .draw hp

theorem unique (h : Sole i w w₁) (h' : Moves i w w₂) : w₂ = w₁ := by
  cases h with
  | send hp =>
    cases h' with
    | send hp' => cases hp.symm.trans hp'; rfl
    | recv l hp' hj hm => cases hp.symm.trans hp'
    | draw hp' => cases hp.symm.trans hp'
  | recv hp hm =>
    cases h' with
    | send hp' => cases hp.symm.trans hp'
    | recv l hp' hj hm' =>
      cases hp.symm.trans hp'
      have hl := position_eq_zero l
      subst hl
      cases hj
      cases hm.symm.trans hm'
      rfl
    | draw hp' => cases hp.symm.trans hp'
  | draw hp =>
    cases h' with
    | send hp' => cases hp.symm.trans hp'
    | recv l hp' hj hm => cases hp.symm.trans hp'
    | draw hp' => cases hp.symm.trans hp'; rfl

/-- The moves of others neither take the step away nor add another one. -/
theorem persists (h : Sole i w w₁) (hother : Moves k w w₂) (hik : i ≠ k) :
    ∃ w₃, Sole i w₂ w₃ ∧ Moves k w₁ w₃ := by
  obtain ⟨w₃, hk, hi⟩ := h.moves.comm hother hik
  have hprogram := hother.program_other hik
  have hsole : ∃ v, Sole i w₂ v := by
    cases h with
    | send hp => exact ⟨_, .send (hprogram.trans hp)⟩
    | @recv j next m rest hp hm =>
      obtain ⟨ms, hms⟩ := hother.flight_to hik j
      rw [hm] at hms
      exact ⟨_, .recv (hprogram.trans hp) hms.symm⟩
    | draw hp => exact ⟨_, .draw (hprogram.trans hp)⟩
  obtain ⟨v, hv⟩ := hsole
  have hsame : w₃ = v := hv.unique hi
  exact ⟨w₃, hsame ▸ hv, hk⟩

end Sole

/-- Party `i` waits for somebody who has left, and nothing from there is on its way. -/
def Abandoned (n : Nat) (w : World α) (i : Nat) : Prop :=
  ∃ peers next, ∃ k : Fin peers.length, w.program i = .recv peers next ∧
    w.flight (peers.get k, i) = [] ∧
    (n ≤ peers.get k ∨ ∃ a, w.program (peers.get k) = .done a)

/-- What is left to say of a run of `n` parties at its end. -/
abbrev Outcome (α : Type) := (Nat → α) → (Nat × Nat → List Bytes) → (Nat → Tape) → Prop

/-- **Every run ends well.**  Whoever moves next, the run goes on until all parties are
done with results as `post` says, and nobody ever waits for a party that has left. -/
inductive Settles (n : Nat) (post : Outcome α) : World α → Prop
  | finished {w} (a : Nat → α) (hdone : ∀ i < n, w.program i = .done (a i))
      (hpost : post a w.flight w.tape) : Settles n post w
  | running {w} (hlive : ∃ i w', i < n ∧ Moves i w w') (hwait : ∀ i < n, ¬ Abandoned n w i)
      (hnext : ∀ i w', i < n → Moves i w w' → Settles n post w') : Settles n post w

namespace Settles

variable {n i : Nat} {post : Outcome α} {w w₁ : World α}

/-- Who is abandoned stays so while others make their only steps. -/
theorem abandoned_persists {k : Nat} (hi : i < n) (hs : Sole i w w₁) (h : Abandoned n w k) :
    k ≠ i ∧ Abandoned n w₁ k := by
  obtain ⟨peers, next, l, hp, hempty, hgone⟩ := h
  have hki : k ≠ i := by
    rintro rfl
    cases hs with
    | send hp' => cases hp.symm.trans hp'
    | recv hp' hm =>
      cases hp.symm.trans hp'
      have hl := position_eq_zero l
      subst hl
      cases hempty.symm.trans hm
    | draw hp' => cases hp.symm.trans hp'
  have hl : peers.get l ≠ i := by
    intro hl
    rcases hgone with hout | ⟨a, ha⟩
    · omega
    · rw [hl] at ha
      exact hs.moves.not_done a ha
  refine ⟨hki, peers, next, l, (hs.moves.program_other hki).trans hp, ?_, ?_⟩
  · rw [hs.moves.flight_between hl hki]
    exact hempty
  · rcases hgone with hout | ⟨a, ha⟩
    · exact .inl hout
    · exact .inr ⟨a, (hs.moves.program_other hl).trans ha⟩

/-- **A party without a choice may move first.** -/
theorem of_sole (hi : i < n) (hs : Sole i w w₁) (h : Settles n post w₁) :
    Settles n post w := by
  induction h generalizing w with
  | @finished w₁ a hdone hpost =>
    refine .running ⟨i, w₁, hi, hs.moves⟩ ?_ ?_
    · intro k hk habandoned
      obtain ⟨-, peers, next, l, hp, -, -⟩ := abandoned_persists hi hs habandoned
      cases hp.symm.trans (hdone k hk)
    · intro k w₂ hk hmove
      by_cases hki : i = k
      · subst hki
        rw [hs.unique hmove]
        exact .finished a hdone hpost
      · obtain ⟨w₃, -, hk₃⟩ := hs.persists hmove hki
        exact absurd (hdone k hk) (hk₃.not_done _)
  | @running w₁ hlive hwait hnext ih =>
    refine .running ⟨i, w₁, hi, hs.moves⟩ ?_ ?_
    · intro k hk habandoned
      exact hwait k hk (abandoned_persists hi hs habandoned).2
    · intro k w₂ hk hmove
      by_cases hki : i = k
      · subst hki
        rw [hs.unique hmove]
        exact .running hlive hwait hnext
      · obtain ⟨w₃, hs₂, hk₃⟩ := hs.persists hmove hki
        exact ih k w₃ hk hk₃ hs₂

/-- Nobody gives up a link. -/
theorem not_close (h : Settles n post w) (hi : i < n) (peer : Nat) (next : Protocol α) :
    w.program i ≠ .close peer next := by
  induction h with
  | finished a hdone hpost => simp [hdone i hi]
  | @running w hlive hwait hnext ih =>
    intro hclose
    obtain ⟨k, w', hk, hmove⟩ := hlive
    have hki : i ≠ k := by
      rintro rfl
      cases hmove with
      | send hp => cases hclose.symm.trans hp
      | recv l hp hj hm => cases hclose.symm.trans hp
      | draw hp => cases hclose.symm.trans hp
    exact ih k w' hk hmove ((hmove.program_other hki).trans hclose)

end Settles

end Beaver
