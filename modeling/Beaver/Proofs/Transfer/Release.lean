import Beaver.Proofs.Endings
import Beaver.Proofs.Hashing
import Beaver.Proofs.Transfer.Phases

/-!
# When a sender releases a batch

The phases of a sender can be called one by one, in any order, and the caller may go on
after an error.  A call out of order is refused and changes nothing.  Every other call is
*entered*, and takes the sender to the next phase before its own work has succeeded: also
the correction that could not be read and the check that found a cheat count as done
(`Call.ends_run`).

So hashing is refused exactly if the four phases before it have not been entered
(`hash_released_iff`), and whoever goes on after a failed check gets the blocks of the batch
(`unchecked_batch_released`).
-/

namespace Beaver

open Session (Always Ends ends_map start_bind_of_done start_get)
open List

namespace LinkEnd

variable {σ γ : Type} {l : LinkEnd} {phase : String} {w : Wire γ} {t : σ}

/-- Waiting on a closed link. -/
theorem ends_recv_closed : Ends (l.recv phase w) t [.got l.address none]
    (.error (.error (.link phase .closed))) t := by
  rw [Ends, ← bind_pure (l.recv phase w), start_recv_bind]
  exact .cons (@Protocol.Does.recv _ [l.address] _ ⟨0, Nat.zero_lt_one⟩ none) .nil

/-- An exchange on a closed link. -/
theorem ends_exchange_closed (l : LinkEnd) (phase : String) (w : Wire γ) (c : γ) (t : σ) :
    ∃ es, Ends (l.exchange phase w c) t es (.error (.error (.link phase .closed))) t := by
  by_cases hfirst : l.me < l.peer
  · refine ⟨.sent l.address (w.encode c) :: [.got l.address none], ?_⟩
    rw [exchange, if_pos hfirst, Ends, start_send_bind]
    exact .cons .send ends_recv_closed
  · refine ⟨[.got l.address none], ?_⟩
    rw [exchange, if_neg hfirst]
    exact ends_recv_closed.andThen_error

end LinkEnd

namespace Transfer

/-- The phase that follows; after hashing, the next batch begins. -/
def Phase.next : Phase → Phase
  | expand => correlate
  | correlate => transpose
  | transpose => check
  | check => hash
  | hash => expand

theorem Phase.next_injective : Function.Injective Phase.next := by
  intro p q h
  cases p <;> cases q <;> cases h <;> rfl

namespace Sender

/-- A call of one phase. -/
inductive Call where
  | expand (n : Nat)
  | correlate
  | transpose
  | check
  | hash

namespace Call

/-- The phase that a call is for. -/
def phase : Call → Phase
  | expand _ => .expand
  | correlate => .correlate
  | transpose => .transpose
  | check => .check
  | hash => .hash

/-- Makes a call; only hashing releases blocks. -/
def run (l : LinkEnd) : Call → Session Sender (Option (List (Block × Block)))
  | expand n => (fun _ => none) <$> Sender.expand n
  | correlate => (fun _ => none) <$> Sender.correlate l
  | transpose => (fun _ => none) <$> Sender.transpose
  | check => (fun _ => none) <$> Sender.check l
  | hash => some <$> Sender.hash

end Call

/-- A call with what became of it. -/
abbrev Answer := Call × Except Failure (Option (List (Block × Block)))

/-- The answer to a call out of order. -/
def outOfOrder : Failure := .error (.misuse .senderOrder)

/-- Whether a call was made in order, whatever became of it. -/
def Answer.entered (a : Answer) : Bool :=
  match a.2 with
  | .error (.error (.misuse .senderOrder)) => false
  | _ => true

/-- The answers to a caller who goes on after every error. -/
def Answers (l : LinkEnd) (s : Sender) (answers : List Answer) : Prop :=
  ∃ es t, Ends (Session.runEach (Call.run l) (fun _ => true) (answers.map (·.1))) s es
    (.ok (answers.map (·.2))) t

variable {n k : Nat} {m : Misuse} {l : LinkEnd} {call : Call} {s : Sender} {answers : List Answer}
variable {phase : Phase} {a : Answer}

theorem checkLength_ne_misuse : checkLength n k ≠ .error (.misuse m) := by
  intro h
  rw [checkLength] at h
  split at h <;> cases h

theorem checkLength_bind_ne_misuse {α : Type} {a : α} :
    (do checkLength n k; .ok a : Except Error α) ≠ .error (.misuse m) := by
  intro h
  rw [checkLength] at h
  split at h <;> cases h

/-- **A phase counts as done once it is entered**, also if its work fails. -/
theorem Call.always_run (hphase : s.phase = call.phase) :
    Always (fun _ => True) (call.run l) s (fun _ t => t.phase = call.phase.next)
      fun e t => e ≠ outOfOrder ∧ t.phase = call.phase.next := by
  cases call with
  | expand n =>
    simp [run, phase, Phase.next, Sender.expand, advance, hphase, outOfOrder]
    rintro rows - blank - _ h rfl
    exact checkLength_bind_ne_misuse h
  | correlate =>
    simp [run, phase, Phase.next, Sender.correlate, advance, hphase, outOfOrder]
    refine fun u _ _ => ⟨?_, ?_⟩
    · rintro - - _ h rfl
      exact checkLength_bind_ne_misuse h
    · rintro _ h rfl
      exact checkLength_ne_misuse h
  | transpose => simp [run, phase, Phase.next, Sender.transpose, advance, hphase]
  | check =>
    simp [run, phase, Phase.next, Sender.check, advance, hphase, outOfOrder, challenges,
      CoinToss.always_pairwise]
  | hash => simp [run, phase, Phase.next, Sender.hash, advance, hphase, outOfOrder]

/-- A call out of order has no effect. -/
theorem start_refused {α β : Type} {now next : Phase} {work : Unit → Session Sender α} {f : α → β}
    (hphase : s.phase ≠ now) :
    (f <$> (advance now next >>= work)).start s = .done (.error outOfOrder, s) := by
  rw [Session.start_map, Session.start_bind, advance,
    start_bind_of_done (start_get s), if_neg hphase]
  rfl

/-- What a call does to the phase. -/
theorem Call.ends_run {t : Sender} {es : List Event}
    {r : Except Failure (Option (List (Block × Block)))} (h : Ends (call.run l) s es r t) :
    (s.phase = call.phase ∧ r ≠ .error outOfOrder ∧ t.phase = s.phase.next) ∨
      (s.phase ≠ call.phase ∧ r = .error outOfOrder ∧ t = s) := by
  by_cases hphase : s.phase = call.phase
  · have hended := (always_run (l := l) hphase).of_ends h
    refine Or.inl ⟨hphase, ?_⟩
    rw [hphase]
    cases r with
    | ok a => exact ⟨nofun, hended⟩
    | error e => exact ⟨fun he => hended.1 (Except.error.inj he), hended.2⟩
  · have hstart : (call.run l).start s = .done (.error outOfOrder, s) := by
      cases call <;> exact start_refused hphase
    obtain ⟨-, rfl, rfl⟩ := (Session.ends_of_start hstart).mp h
    exact Or.inr ⟨hphase, rfl, rfl⟩

/-- The calls that were entered, in turn, have led to a phase. -/
inductive LedTo : Phase → List Answer → Prop where
  | nil : LedTo .expand []
  | snoc {phase : Phase} {answers : List Answer} {a : Answer} (h : LedTo phase answers)
      (hcall : a.1.phase = phase) : LedTo phase.next (answers ++ [a])

theorem LedTo.exists_last (now : Phase) (h : LedTo now.next answers) (hnow : now ≠ .hash) :
    ∃ earlier a, answers = earlier ++ [a] ∧ a.1.phase = now ∧ LedTo now earlier := by
  generalize hnext : now.next = q at h
  cases h with
  | nil =>
    cases now with
    | hash => exact absurd rfl hnow
    | expand | correlate | transpose | check => cases hnext
  | snoc h hcall =>
    have hphase := Phase.next_injective hnext
    subst hphase
    exact ⟨_, _, rfl, hcall, h⟩

theorem LedTo.eq_next {earlier : List Answer} (h : LedTo phase (earlier ++ [a])) :
    phase = a.1.phase.next := by
  generalize hall : earlier ++ [a] = answers at h
  cases h with
  | nil => exact absurd hall (by simp)
  | snoc h hcall =>
    obtain ⟨-, hlast⟩ := append_inj' hall rfl
    cases hlast
    rw [hcall]

/-- Hashing comes next exactly if the four other phases were entered last. -/
theorem LedTo.hash_iff (h : LedTo phase answers) :
    phase = .hash ↔ ∃ earlier n r₁ r₂ r₃ r₄, answers = earlier ++
      [(.expand n, r₁), (.correlate, r₂), (.transpose, r₃), (.check, r₄)] := by
  constructor
  · intro hphase
    subst hphase
    obtain ⟨as, ⟨c₄, r₄⟩, rfl, h₄, h⟩ := LedTo.exists_last .check h (by decide)
    obtain ⟨as, ⟨c₃, r₃⟩, rfl, h₃, h⟩ := LedTo.exists_last .transpose h (by decide)
    obtain ⟨as, ⟨c₂, r₂⟩, rfl, h₂, h⟩ := LedTo.exists_last .correlate h (by decide)
    obtain ⟨as, ⟨c₁, r₁⟩, rfl, h₁, -⟩ := LedTo.exists_last .expand h (by decide)
    cases c₂ <;> cases h₂
    cases c₃ <;> cases h₃
    cases c₄ <;> cases h₄
    cases c₁ with
    | expand n => exact ⟨as, n, r₁, r₂, r₃, r₄, by simp⟩
    | correlate | transpose | check | hash => cases h₁
  · intro hlast
    obtain ⟨earlier, n, r₁, r₂, r₃, r₄, rfl⟩ := hlast
    rw [append_cons, append_cons, append_cons] at h
    exact h.eq_next

theorem Answer.entered_iff : a.entered = true ↔ a.2 ≠ .error outOfOrder := by
  obtain ⟨call, r⟩ := a
  simp only [entered, outOfOrder]
  split
  · simp
  · next h => simpa using h

section Runs

variable {l : LinkEnd} {s : Sender}
variable {a : Answer} {answers : List Answer} {es : List Event} {n : Nat}

theorem answers_cons :
    Answers l s (a :: answers) ↔ ∃ es t, a.2 ≠ .error .fault ∧
      Ends (a.1.run l) s es a.2 t ∧ Answers l t answers := by
  constructor
  · intro h
    obtain ⟨es, u, h⟩ := h
    obtain ⟨es₁, es₂, o, t, rest, -, houtcomes, hfault, hstep, hrest⟩ :=
      Session.ends_runEach_cons.mp h
    cases houtcomes
    exact ⟨es₁, t, hfault, hstep, es₂, u, hrest⟩
  · intro h
    obtain ⟨es₁, t, hfault, hstep, es₂, u, hrest⟩ := h
    exact ⟨es₁ ++ es₂, u, Session.ends_runEach_cons.mpr
      ⟨es₁, es₂, a.2, t, _, rfl, rfl, hfault, hstep, hrest⟩⟩

theorem answers_nil : Answers l s [] :=
  ⟨[], s, .of_start (Session.start_pure _ _)⟩

/-- One call keeps track of the phase: it is entered in its own phase, or refused. -/
theorem LedTo.step {t : Sender} (hled : LedTo s.phase answers)
    (h : Ends (a.1.run l) s es a.2 t) :
    LedTo t.phase (answers ++ [a].filter Answer.entered) := by
  rcases Call.ends_run h with ⟨hphase, hr, ht⟩ | ⟨-, hr, rfl⟩
  · rw [filter_cons_of_pos (Answer.entered_iff.mpr hr), filter_nil, ht]
    exact .snoc hled hphase.symm
  · have hnot : ¬ a.entered = true := fun hentered => Answer.entered_iff.mp hentered hr
    rw [filter_cons_of_neg hnot, filter_nil, append_nil]
    exact hled

/-- The phase in which each of many calls is made. -/
theorem Answers.exists_ends {before after : List Answer} (hled : LedTo s.phase answers)
    (h : Answers l s (before ++ a :: after)) :
    ∃ t es u, LedTo t.phase (answers ++ before.filter Answer.entered) ∧
      a.2 ≠ .error .fault ∧ Ends (a.1.run l) t es a.2 u := by
  induction before generalizing s answers with
  | nil =>
    obtain ⟨es, u, hfault, hstep, -⟩ := answers_cons.mp h
    exact ⟨s, es, u, by simpa using hled, hfault, hstep⟩
  | cons b before ih =>
    obtain ⟨es, t, -, hstep, hrest⟩ := answers_cons.mp h
    obtain ⟨v, es', u, hled', hcall⟩ := ih (hled.step hstep) hrest
    refine ⟨v, es', u, ?_, hcall⟩
    rw [append_assoc, ← filter_append] at hled'
    exact hled'

/-- Hashing answers with blocks exactly in its phase. -/
theorem ends_hash_iff {t u : Sender} {r : Except Failure (Option (List (Block × Block)))}
    (hfault : r ≠ .error .fault) (h : Ends (Call.hash.run l) t es r u) :
    (∃ blocks, r = .ok (some blocks)) ↔ t.phase = .hash := by
  constructor
  · rintro ⟨blocks, rfl⟩
    rcases Call.ends_run h with ⟨hphase, -⟩ | ⟨-, hr, -⟩
    · exact hphase
    · cases hr
  · intro hphase
    have hhash : Always (fun _ => True) (Call.hash.run l) t
        (fun o _ => ∃ blocks, o = some blocks) fun e _ => e = .fault := by
      simp [Call.run, hash, advance, hphase]
    have hended := hhash.of_ends h
    cases r with
    | ok o => exact hended.imp fun _ ho => congrArg Except.ok ho
    | error e => exact absurd (congrArg Except.error hended) hfault

/-- A batch that is sent in one call is one whose five calls have all succeeded. -/
theorem ends_send_iff {blocks : List (Block × Block)} :
    (∃ es t, Ends (send l n) s es (.ok blocks) t) ↔
      Answers l s [(.expand n, .ok none), (.correlate, .ok none), (.transpose, .ok none),
        (.check, .ok none), (.hash, .ok (some blocks))] := by
  have hnone : ∀ {w : Session Sender Unit} {v u : Sender} {es : List Event},
      Ends ((fun _ => (none : Option (List (Block × Block)))) <$> w) v es (.ok none) u ↔
        Ends w v es (.ok ()) u := by
    intro w v u es
    rw [ends_map]
    constructor
    · intro h
      obtain ⟨⟨⟩, h, -⟩ := h
      exact h
    · intro h
      exact ⟨(), h, rfl⟩
  simp only [answers_cons, Call.run, hnone]
  constructor
  · intro h
    obtain ⟨es, t, h⟩ := h
    obtain ⟨es₁, _, ⟨⟩, s₁, rfl, h₁, h⟩ := h.of_bind_ok
    obtain ⟨es₂, _, ⟨⟩, s₂, rfl, h₂, h⟩ := h.of_bind_ok
    obtain ⟨es₃, _, ⟨⟩, s₃, rfl, h₃, h⟩ := h.of_bind_ok
    obtain ⟨es₄, es₅, ⟨⟩, s₄, rfl, h₄, h₅⟩ := h.of_bind_ok
    exact ⟨es₁, s₁, nofun, h₁, es₂, s₂, nofun, h₂, es₃, s₃, nofun, h₃, es₄, s₄, nofun, h₄, es₅, t, nofun,
      ends_map.mpr ⟨blocks, h₅, rfl⟩, answers_nil⟩
  · intro h
    obtain ⟨es₁, s₁, -, h₁, es₂, s₂, -, h₂, es₃, s₃, -, h₃, es₄, s₄, -, h₄, es₅, t, -, h₅, -⟩ := h
    obtain ⟨blocks', h₅, hblocks⟩ := ends_map.mp h₅
    cases hblocks
    exact ⟨_, t, h₁.andThen (h₂.andThen (h₃.andThen (h₄.andThen h₅)))⟩

/-- **What a sender releases.**  Let its phases be called one by one, in any order and also
after errors.  Hashing answers with blocks exactly if the four other phases of the batch were
entered before it, whatever became of them; only a batch that is sent in one call is
released after a correction and a check that have both succeeded. -/
theorem hash_released_iff (l : LinkEnd) (s : Sender) (hphase : s.phase = .expand) :
    (∀ before r after, Answers l s (before ++ (.hash, r) :: after) →
      ((∃ blocks, r = .ok (some blocks)) ↔
        ∃ earlier n r₁ r₂ r₃ r₄, before.filter Answer.entered = earlier ++
          [(.expand n, r₁), (.correlate, r₂), (.transpose, r₃), (.check, r₄)])) ∧
    ∀ n blocks, (∃ es t, Ends (send l n) s es (.ok blocks) t) ↔
      Answers l s [(.expand n, .ok none), (.correlate, .ok none), (.transpose, .ok none),
        (.check, .ok none), (.hash, .ok (some blocks))] := by
  refine ⟨?_, fun n blocks => ends_send_iff⟩
  intro before r after h
  have hfresh : LedTo s.phase [] := hphase ▸ .nil
  obtain ⟨t, es, u, hled, hfault, hhash⟩ := h.exists_ends hfresh
  exact (ends_hash_iff hfault hhash).trans hled.hash_iff

/-- What five calls in order come to if the link is closed. -/
def closedAnswers (n : Nat) (blocks : List (Block × Block)) : List Answer :=
  [(.expand n, .ok none), (.correlate, .error (.error (.link "KOS_u" .closed))),
    (.transpose, .ok none),
    (.check, .error (.error (.link "pairwise coin toss commitment" .closed))),
    (.hash, .ok (some blocks))]

theorem ends_correlate_closed (hphase : s.phase = .correlate) :
    ∃ es, Ends (correlate l) s es (.error (.error (.link "KOS_u" .closed)))
      { s with phase := .transpose } := by
  have hadvance := Ends.of_start (start_advance s .transpose hphase)
  exact ⟨_, hadvance.andThen (LinkEnd.ends_recv_closed.andThen_error)⟩

theorem ends_check_closed (hphase : s.phase = .check) (hactive : s.passive = false) :
    ∃ es, Ends (check l) s es
      (.error (.error (.link "pairwise coin toss commitment" .closed))) { s with phase := .hash } := by
  -- both drawn strings are zero; any others would do
  have hbytes : (replicate 32 (0 : UInt8)).length = 32 := length_replicate
  obtain ⟨es, hexchange⟩ := LinkEnd.ends_exchange_closed l "pairwise coin toss commitment"
    (Wire.bytes 32) (CoinToss.commit (replicate 32 0) (replicate 32 0) l.me)
    { s with phase := .hash }
  have htoss : Ends (CoinToss.pairwise l) { s with phase := .hash }
      (.drew (replicate 32 0) :: .drew (replicate 32 0) :: es)
      (.error (.error (.link "pairwise coin toss commitment" .closed))) { s with phase := .hash } :=
    .cons (.draw hbytes) (.cons (.draw hbytes) hexchange.andThen_error)
  refine ⟨.drew (replicate 32 0) :: .drew (replicate 32 0) :: es, ?_⟩
  rw [check, Ends, start_bind_of_done (start_advance s .hash hphase),
    start_bind_of_done (start_get _), if_neg (by simp [hactive])]
  exact (htoss.andThen_error).andThen_error

theorem ofSeeds_eq {delta : BitString} {seeds : List Keystream} (hdelta : delta.length = 128)
    (hseeds : seeds.length = 128) (passive : Bool) : ofSeeds delta seeds passive
      = .ok ⟨passive, (delta.block? 0).getD .zero, seeds, .expand, 0, 0, .empty⟩ := by
  rw [ofSeeds, hdelta, hseeds, BitMatrix.checkLength_self]
  rfl

/-- The calls of a batch over a closed link, by a sender that is not passive.  Neither the correction
nor the check succeeds, and the matrix stays uncorrected. -/
theorem exists_closed_batch (l : LinkEnd) {s : Sender} (hphase : s.phase = .expand)
    (hstreams : s.streams.length = 128) (hactive : s.passive = false) (hroom : HasRoom n) :
    ∃ s₁ s₂ s₃ s₄ t es₂ es₄ blocks, blocks.length = n ∧
      Ends (Call.run l (.expand n)) s [] (.ok none) s₁ ∧
      Ends (Call.run l .correlate) s₁ es₂ (.error (.error (.link "KOS_u" .closed))) s₂ ∧
      Ends (Call.run l .transpose) s₂ [] (.ok none) s₃ ∧
      Ends (Call.run l .check) s₃ es₄
        (.error (.error (.link "pairwise coin toss commitment" .closed))) s₄ ∧
      Ends (Call.run l .hash) s₄ [] (.ok (some blocks)) t ∧
      t.phase = .expand ∧ t.streams.length = 128 ∧ t.passive = false := by
  let m := BitMatrix.ofStreams (squaresFor n) s.streams
  have hsize : (s.checked n m).size ≤ (s.checked n m).matrix.height := by
    change n ≤ m.transpose.height
    rw [BitMatrix.height_transpose, BitMatrix.height, BitMatrix.length_ofStreams]
    exact length_le_height n
  obtain ⟨es₂, hcorrelate⟩ := ends_correlate_closed (l := l) (s := s.expanded n) rfl
  obtain ⟨es₄, hcheck⟩ := ends_check_closed (l := l) (s := { s.checked n m with phase := .check })
    rfl hactive
  refine ⟨s.expanded n, s.corrected n m, _, s.checked n m, _, es₂, es₄, _, ?_,
    (Ends.of_start (start_expand hphase hstreams hroom)).map _, hcorrelate.map _,
    (Ends.of_start (start_transpose rfl)).map _, hcheck.map _,
    (Ends.of_start (start_hash rfl hsize)).map _, rfl,
    (length_map _).trans hstreams, hactive⟩
  simp only [length_zip, TweakedHash.length_hashFrom, length_map, length_take,
    BitMatrix.length_rows, Nat.min_self]
  exact Nat.min_eq_left hsize

/-- **A batch that was never checked is released**, by every new sender that is not passive.
Nothing comes from the peer, so neither the correction nor the check succeeds, and yet the
last call answers with all the blocks. -/
theorem unchecked_batch_released (l : LinkEnd) (delta : BitString) (seeds : List Keystream)
    (hdelta : delta.length = 128) (hseeds : seeds.length = 128) (hroom : HasRoom n) :
    ∃ s blocks, ofSeeds delta seeds false = .ok s ∧ s.phase = .expand ∧ blocks.length = n ∧
      Answers l s (closedAnswers n blocks) := by
  let s : Sender := ⟨false, (delta.block? 0).getD .zero, seeds, .expand, 0, 0, .empty⟩
  obtain ⟨_, _, _, _, _, _, _, blocks, hlength, h₁, h₂, h₃, h₄, h₅, -⟩ :=
    exists_closed_batch l (s := s) rfl hseeds rfl hroom
  refine ⟨s, blocks, ofSeeds_eq hdelta hseeds false, rfl, hlength, ?_⟩
  simp only [closedAnswers, answers_cons]
  exact ⟨_, _, nofun, h₁, _, _, nofun, h₂, _, _, nofun, h₃, _, _, nofun, h₄, _, _, nofun, h₅, answers_nil⟩

end Runs

theorem hash_released_iff_closed : ∃ s blocks, s.phase = .expand ∧
    Answers ⟨1, 0, 1⟩ s (closedAnswers 2 blocks) ∧
    ∃ earlier n r₁ r₂ r₃ r₄, ((closedAnswers 2 blocks).take 4).filter Answer.entered = earlier ++
      [(.expand n, r₁), (.correlate, r₂), (.transpose, r₃), (.check, r₄)] := by
  obtain ⟨s, blocks, -, hphase, -, hanswers⟩ := unchecked_batch_released ⟨1, 0, 1⟩
    ⟨replicate 16 0, 128⟩ (replicate 128 (Keystream.ofSeed .zero)) rfl rfl
    (show HasRoom 2 by decide)
  have hreleased := (hash_released_iff ⟨1, 0, 1⟩ s hphase).1 ((closedAnswers 2 blocks).take 4) _ []
    hanswers
  exact ⟨s, blocks, hphase, hanswers, hreleased.mp ⟨blocks, rfl⟩⟩

/-- That the check has failed keeps no blocks back. -/
theorem released_after_failed_check : ∃ s blocks,
    ofSeeds ⟨replicate 16 0, 128⟩ (replicate 128 (Keystream.ofSeed .zero)) false = .ok s ∧
    blocks.length = 2 ∧
    Answers ⟨1, 0, 1⟩ s [(.expand 2, .ok none),
      (.correlate, .error (.error (.link "KOS_u" .closed))), (.transpose, .ok none),
      (.check, .error (.error (.link "pairwise coin toss commitment" .closed))),
      (.hash, .ok (some blocks))] := by
  obtain ⟨s, blocks, hs, -, hlength, hanswers⟩ := unchecked_batch_released ⟨1, 0, 1⟩
    ⟨replicate 16 0, 128⟩ (replicate 128 (Keystream.ofSeed .zero)) rfl rfl
    (show HasRoom 2 by decide)
  exact ⟨s, blocks, hs, hlength, hanswers⟩

end Sender

end Transfer

end Beaver
