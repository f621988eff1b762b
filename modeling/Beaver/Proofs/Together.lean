import Beaver.Proofs.Forking
import Beaver.Proofs.NetworkRun
import Beaver.Proofs.Rounds

/-!
# All parties together

`Together n p tape post` says that `n` parties, each with a program of its own and its
private randomness on a tape, get from these programs to results as `post` says, with
nothing left on its way, and that whatever they do next they can do from there.  Such
statements follow each other like the programs do (`Together.bind`), so a protocol is
proved step by step: what every party does alone (`Together.alone`), what all pairs do
one after the other (`Together.rounds`), and what all pairs do side by side
(`Together.fork`).
-/

namespace Beaver

open List
open Function (update)

variable {α β γ : Type}

/-- The parties run these programs, nothing is on its way, and their private randomness is
on these tapes. -/
structure World.Quiet (n : Nat) (p : Nat → Protocol α) (tape : Nat → Tape) (w : World α) :
    Prop where
  program : ∀ i < n, w.program i = p i
  flight : ∀ key, w.flight key = []
  tape : ∀ i < n, w.tape i = tape i

variable {w : World α} {coins : List Coins} {p : Nat → Protocol β}

theorem World.Quiet.congr {n : Nat} {p q : Nat → Protocol α} {tape tape' : Nat → Tape}
    (h : w.Quiet n p tape) (hp : ∀ i < n, p i = q i) (htape : ∀ i < n, tape i = tape' i) :
    w.Quiet n q tape' :=
  ⟨fun i hi => (h.program i hi).trans (hp i hi), h.flight,
    fun i hi => (h.tape i hi).trans (htape i hi)⟩

/-- A program that only draws, with its result and the randomness left. -/
inductive Alone : Protocol α → Tape → α → Tape → Prop
  | done {a s} : Alone (.done a) s a s
  | draw {c next s a s'} (h : Alone (next (s.next c)) s.tail a s') : Alone (.draw c next) s a s'

theorem Alone.bind {p : Protocol α} {f : α → Protocol β} {s s' s'' : Tape} {a : α} {b : β}
    (h : Alone p s a s') (h' : Alone (f a) s' b s'') : Alone (p.bind f) s b s'' := by
  induction h with
  | done => exact h'
  | draw _ ih => exact .draw (ih h')

/-- A party may draw first. -/
theorem Settles.of_alone {n i : Nat} {goal : Outcome α} (hi : i < n) {p : Protocol β}
    {k : β → Protocol α} {b : β} {s s' : Tape} (h : Alone p s b s') (hp : w.program i = p.bind k)
    (hs : w.tape i = s)
    (hrest : Settles n goal ⟨update w.program i (k b), w.flight, update w.tape i s'⟩) :
    Settles n goal w := by
  induction h generalizing w with
  | @done a s =>
    have hsame : (⟨update w.program i (k a), w.flight, update w.tape i s⟩ : World α) = w := by
      subst hs
      ext1
      · exact (congrArg (update w.program i) hp.symm).trans (Function.update_eq_self i _)
      · rfl
      · exact Function.update_eq_self i _
    exact hsame ▸ hrest
  | @draw c next s a s' _ ih =>
    subst hs
    refine .of_sole hi (.draw hp) (ih (by simp [World.drawn]) (by simp [World.drawn]) ?_)
    simpa [World.drawn] using hrest

/-- **What all parties do together.**  From these programs they get to results as `post`
says, and can go on from there. -/
def Together (n : Nat) (p : Nat → Protocol β) (tape : Nat → Tape)
    (post : (Nat → β) → (Nat → Tape) → Prop) : Prop :=
  ∀ (α : Type) (goal : Outcome α) (k : Nat → β → Protocol α) (w : World α),
    w.Quiet n (fun i => (p i).bind (k i)) tape →
    (∀ b tape' w', post b tape' → w'.Quiet n (fun i => k i (b i)) tape' → Settles n goal w') →
    Settles n goal w

namespace Together

variable {n : Nat} {p q : Nat → Protocol β} {tape : Nat → Tape}
variable {post : (Nat → β) → (Nat → Tape) → Prop}

theorem done {b : Nat → β} (h : post b tape) : Together n (fun i => .done (b i)) tape post := by
  intro α goal k w hw hrest
  exact hrest b tape w h hw

variable {tape' : Nat → Tape} {δ : Type} {R : Nat → Nat → γ → γ → Prop}
variable {slot : Nat → Nat → Protocol δ}

/-- Only the parties matter. -/
theorem congr (h : Together n p tape post) (hpq : ∀ i < n, p i = q i)
    (htape : ∀ i < n, tape i = tape' i) : Together n q tape' post := by
  intro α goal k w hw hrest
  refine h α goal k w (hw.congr (fun i hi => ?_) fun i hi => (htape i hi).symm) hrest
  rw [hpq i hi]

theorem mono {post' : (Nat → β) → (Nat → Tape) → Prop} (h : Together n p tape post)
    (himp : ∀ b tape', post b tape' → post' b tape') : Together n p tape post' := by
  intro α goal k w hw hrest
  exact h α goal k w hw fun b tape' w' hpost hw' => hrest b tape' w' (himp b tape' hpost) hw'

/-- **One thing after the other.** -/
theorem bind {post' : (Nat → γ) → (Nat → Tape) → Prop} {f : Nat → β → Protocol γ}
    (h : Together n p tape post)
    (h' : ∀ b tape', post b tape' → Together n (fun i => f i (b i)) tape' post') :
    Together n (fun i => (p i).bind (f i)) tape post' := by
  intro α goal k w hw hrest
  refine h α goal (fun i b => (f i b).bind (k i)) w ?_ ?_
  · exact hw.congr (fun i _ => Protocol.bind_assoc _ _ _) fun _ _ => rfl
  · intro b tape' w' hpost hw'
    exact h' b tape' hpost α goal k w' hw' hrest

/-- **Every party works alone.** -/
theorem alone {b : Nat → β} (h : ∀ i < n, Alone (p i) (tape i) (b i) (tape' i))
    (hpost : post b tape') : Together n p tape post := by
  intro α goal k w hw hrest
  -- the parties below `m` have drawn; the induction is on how many have not
  have hsteps : ∀ d m, m + d = n → ∀ w : World α, (∀ key, w.flight key = []) →
      (∀ i < n, w.program i = if i < m then k i (b i) else (p i).bind (k i)) →
      (∀ i < n, w.tape i = if i < m then tape' i else tape i) → Settles n goal w := by
    intro d
    induction d with
    | zero =>
      intro m hm w hflight hprogram htape
      refine hrest b tape' w hpost ⟨fun i hi => ?_, hflight, fun i hi => ?_⟩
      · rw [hprogram i hi, if_pos (by omega)]
      · rw [htape i hi, if_pos (by omega)]
    | succ d ih =>
      intro m hm w hflight hprogram htape
      have hlt : m < n := by omega
      refine .of_alone hlt (h m hlt) (k := k m) ?_ ?_ (ih (m + 1) (by omega) _ hflight ?_ ?_)
      · rw [hprogram m hlt, if_neg (by omega)]
      · rw [htape m hlt, if_neg (by omega)]
      all_goals
        intro i hi
        by_cases him : i = m
        · subst him
          simp
        · have hstep : i < m + 1 ↔ i < m := by omega
          simp [him, hprogram i hi, htape i hi, hstep]
  refine hsteps n 0 (by omega) w hw.flight ?_ ?_
  · intro i hi
    rw [hw.program i hi, if_neg (by omega)]
  · intro i hi
    rw [hw.tape i hi, if_neg (by omega)]

/-- **All pairs, one after the other.** -/
theorem rounds [Nonempty γ] {T : Tape → Tape → Prop} {Q : Nat → Nat → (Nat → γ) → Protocol β}
    {next : Nat → Nat → (Nat → γ) → δ → Protocol β} (h : Rounds n R T Q slot next)
    (hstart : ∀ i < n, ∀ r, p i = Q i 0 r)
    (hrest : ∀ (r : Nat → Nat → γ) (tape' : Nat → Tape),
      (∀ i j, i < j → j < n → R i j (r i j) (r j i)) → (∀ i < n, T (tape i) (tape' i)) →
      Together n (fun i => Q i n (r i)) tape' post) :
    Together n p tape post := by
  intro α goal k w hw hfinal
  have hbound : Rounds n R T (fun i m r => (Q i m r).bind (k i)) slot
      (fun i j r c => (next i j r c).bind (k i)) := by
    refine ⟨h.refl, h.trans, ?_, ?_, ?_⟩
    · intro i r hi
      rw [h.skip i r hi]
    · intro i j r hi hj hij
      rw [h.unfold i j r hi hj hij, Protocol.bind_assoc]
    · intro i j hij hj s u
      refine (h.meets i j hij hj s u).mono ?_
      rintro b c s' u' ⟨hs, hu, b', c', hR, hb, hc⟩
      exact ⟨hs, hu, b', c', hR, fun r => by rw [hb], fun r => by rw [hc]⟩
  refine Settles.of_rounds hbound (fun i hi r => ?_) hw.flight ?_
  · rw [hw.program i hi, hstart i hi r]
  · intro r w' hR hprogram hflight hT
    refine hrest r w'.tape hR (fun i hi => hw.tape i hi ▸ hT i hi) α goal k w' ?_ hfinal
    exact ⟨hprogram, hflight, fun _ _ => rfl⟩

/-- Everybody works through its peers in turn.  `P i js rs` is what party `i` runs when the
peers `js` are still to come, and those before gave `rs`. -/
theorem inTurn [Nonempty γ] {P : Nat → List Nat → List (Nat × γ) → Protocol β}
    {next : Nat → Nat → List Nat → List (Nat × γ) → δ → Protocol β}
    (hunfold : ∀ i j js rs, P i (j :: js) rs = (slot i j).bind (next i j js rs))
    (hmeets : ∀ i j, i < j → j < n → ∀ s u, Meets i j (fun b c _ _ => ∃ b' c', R i j b' c' ∧
      (∀ js rs, next i j js rs b = P i js (rs ++ [(j, b')])) ∧
      ∀ js rs, next j i js rs c = P j js (rs ++ [(i, c')])) (slot i j) (slot j i) [] [] s u)
    (hrest : ∀ (r : Nat → Nat → γ) (tape' : Nat → Tape),
      (∀ i j, i < j → j < n → R i j (r i j) (r j i)) →
      Together n (fun i => P i [] ((others n i).map fun j => (j, r i j))) tape' post) :
    Together n (fun i => P i (others n i) []) tape post := by
  -- the peers from `k` on, and the results from those below
  let left (i k : Nat) : List Nat := (range' k (n - k)).filter (· ≠ i)
  let before (k i : Nat) (r : Nat → γ) : List (Nat × γ) := (others k i).map fun j => (j, r j)
  have hleft : ∀ {i k}, k < n → left i k = if k = i then left i (k + 1) else k :: left i (k + 1) := by
    intro i k hk
    have hrange : range' k (n - k) = k :: range' (k + 1) (n - (k + 1)) := by
      rw [show n - k = n - (k + 1) + 1 by omega]
      rfl
    simp only [left, hrange, filter_cons]
    split <;> simp_all
  have hbefore : ∀ {i j} (r : Nat → γ) (b : γ), j ≠ i →
      before (j + 1) i (update r j b) = before j i r ++ [(j, b)] := by
    intro i j r b hj
    have hothers : others (j + 1) i = others j i ++ [j] := by simp [others, range_succ, hj]
    simp only [before, hothers, map_append, map_singleton, Function.update_self]
    congr 1
    refine map_congr_left fun k hk => ?_
    rw [Function.update_of_ne (Nat.ne_of_lt (mem_others.mp hk).1)]
  have hrounds : Rounds n R (fun _ _ => True) (fun i k r => P i (left i k) (before k i r)) slot
      (fun i j r => next i j (left i (j + 1)) (before j i r)) := by
    refine ⟨fun _ => trivial, fun _ _ _ _ _ => trivial, ?_, ?_, ?_⟩
    · intro i r hi
      have hothers : others (i + 1) i = others i i := by simp [others, range_succ]
      simp only [before, hothers, hleft hi, if_true]
    · intro i j r hi hj hij
      rw [hleft hj, if_neg (Ne.symm hij), hunfold]
    · intro i j hij hj s u
      refine (hmeets i j hij hj s u).mono ?_
      rintro b c s' u' ⟨b', c', hR, hb, hc⟩
      refine ⟨trivial, trivial, b', c', hR, fun r => ?_, fun r => ?_⟩
      · rw [hb, hbefore r b' (Nat.ne_of_gt hij)]
      · rw [hc, hbefore r c' (Nat.ne_of_lt hij)]
  refine rounds hrounds (fun i hi r => ?_) fun r tape' hR _ => ?_
  · simp [left, before, others, range_eq_range']
  · refine (hrest r tape' hR).congr (fun i hi => ?_) fun _ _ => rfl
    simp [left, before]

/-- What every two parties have, for all of them at once. -/
theorem exists_pairwise [Nonempty γ] {Q : Nat → Nat → γ → γ → Prop}
    (h : ∀ i j, i < j → j < n → ∃ b c, Q i j b c) :
    ∃ r : Nat → Nat → γ, ∀ i j, i < j → j < n → Q i j (r i j) (r j i) := by
  choose! b c hbc using h
  refine ⟨fun i j => if i < j then b i j else c j i, fun i j hij hj => ?_⟩
  dsimp only
  rw [if_pos hij, if_neg (by omega)]
  exact hbc i j hij hj

/-- **All pairs, side by side.** -/
theorem fork [Nonempty γ] {t : Nat → Nat → Protocol γ} {f : Nat → List γ → Protocol β}
    (hmeets : ∀ i j, i < j → j < n → ∀ s u,
      Meets i j (fun a b _ _ => R i j a b) (t i j) (t j i) [] [] s u)
    (hrest : ∀ (r : Nat → Nat → γ) (tape' : Nat → Tape),
      (∀ i j, i < j → j < n → R i j (r i j) (r j i)) →
      Together n (fun i => f i ((others n i).map (r i))) tape' post) :
    Together n (fun i => (Protocol.parallel ((others n i).map (t i))).bind (f i)) tape post := by
  intro α goal k w hw hfinal
  refine Settles.of_fork (k := fun i xs => (f i xs).bind (k i)) hw.flight ?_ hmeets ?_
  · intro i hi
    rw [hw.program i hi, Protocol.bind_assoc]
  · intro r hR w' hprogram hflight
    exact hrest r w'.tape hR α goal k w' ⟨hprogram, hflight, fun _ _ => rfl⟩ hfinal

/-- All pairs side by side, when what the programs give is made of what `R` is about. -/
theorem forkOf [Nonempty γ] [Nonempty δ] {made : Nat → Nat → γ → δ} {t : Nat → Nat → Protocol δ}
    {f : Nat → List δ → Protocol β}
    (hmeets : ∀ i j, i < j → j < n → ∀ s u, Meets i j
      (fun a b _ _ => ∃ c d, R i j c d ∧ a = made i j c ∧ b = made j i d) (t i j) (t j i) [] [] s u)
    (hrest : ∀ (r : Nat → Nat → γ) (tape' : Nat → Tape),
      (∀ i j, i < j → j < n → R i j (r i j) (r j i)) →
      Together n (fun i => f i ((others n i).map fun j => made i j (r i j))) tape' post) :
    Together n (fun i => (Protocol.parallel ((others n i).map (t i))).bind (f i)) tape post := by
  refine fork hmeets fun w tape' hw => ?_
  obtain ⟨r, hr⟩ := exists_pairwise hw
  refine (hrest r tape' fun i j hij hj => (hr i j hij hj).1).congr (fun i hi => ?_) fun _ _ => rfl
  congr 1
  refine map_congr_left fun j hj => ?_
  obtain ⟨hjn, hji⟩ := mem_others.mp hj
  rcases Nat.lt_or_gt_of_ne hji with hlt | hgt
  · exact (hr j i hlt hi).2.2.symm
  · exact (hr i j hgt hjn).2.1.symm

end Together

/-- The parties get from these programs to exactly these results, with this randomness
left. -/
def Gives (n : Nat) (p : Nat → Protocol β) (tape : Nat → Tape) (b : Nat → β)
    (tape' : Nat → Tape) : Prop :=
  Together n p tape fun c u => c = b ∧ u = tape'

namespace Gives

variable {n : Nat} {p q : Nat → Protocol β} {tape tape' tape'' : Nat → Tape} {b : Nat → β}

theorem done (b : Nat → β) (tape : Nat → Tape) : Gives n (fun i => .done (b i)) tape b tape :=
  Together.done ⟨rfl, rfl⟩

theorem congr (h : Gives n p tape b tape') (hpq : ∀ i < n, p i = q i) :
    Gives n q tape b tape' :=
  Together.congr h hpq fun _ _ => rfl

theorem bind {c : Nat → γ} {f : Nat → β → Protocol γ} (h : Gives n p tape b tape')
    (h' : Gives n (fun i => f i (b i)) tape' c tape'') :
    Gives n (fun i => (p i).bind (f i)) tape c tape'' := by
  refine Together.bind h ?_
  rintro _ _ ⟨rfl, rfl⟩
  exact h'

theorem alone (h : ∀ i < n, Alone (p i) (tape i) (b i) (tape' i)) : Gives n p tape b tape' :=
  Together.alone h ⟨rfl, rfl⟩

variable {σ τ : Type}
variable {s : Nat → Session σ α} {f : Nat → α → Session σ γ} {t t' : Nat → σ} {x : Nat → α}

/-- A step that succeeds, and what follows it. -/
theorem andThen {r : Nat → Except Failure γ × σ}
    (h : Gives n (fun i => (s i).start (t i)) tape (fun i => (.ok (x i), t' i)) tape')
    (h' : Gives n (fun i => (f i (x i)).start (t' i)) tape' r tape'') :
    Gives n (fun i => (s i >>= f i).start (t i)) tape r tape'' := by
  refine (bind h (f := fun i => Session.resume (f i)) h').congr fun i _ => ?_
  rw [Session.start_bind]

/-- Nothing follows a step that fails. -/
theorem failed {e : Nat → Failure}
    (h : Gives n (fun i => (s i).start (t i)) tape (fun i => (.error (e i), t' i)) tape') :
    Gives n (fun i => (s i >>= f i).start (t i)) tape (fun i => (.error (e i), t' i)) tape' := by
  refine (bind h (f := fun i => Session.resume (f i)) (done _ _)).congr fun i _ => ?_
  rw [Session.start_bind]

/-- A step on a part of the state. -/
theorem zoom (part : τ → σ) (put : σ → τ → τ) (t : Nat → τ) {r : Nat → Except Failure α × σ}
    (h : Gives n (fun i => (s i).start (part (t i))) tape r tape') :
    Gives n (fun i => ((s i).zoom part put).start (t i)) tape
      (fun i => ((r i).1, put (r i).2 (t i))) tape' :=
  bind h (f := fun i (x : Except Failure α × σ) => .done (x.1, put x.2 (t i))) (done _ _)

/-- A step that succeeds needs no handler. -/
theorem tryCatch {handler : Nat → Failure → Session σ α}
    (h : Gives n (fun i => (s i).start (t i)) tape (fun i => (.ok (x i), t' i)) tape') :
    Gives n (fun i => (MonadExcept.tryCatch (s i) (handler i)).start (t i)) tape
      (fun i => (.ok (x i), t' i)) tape' := by
  refine (bind h (f := fun i => Session.rescue (handler i)) (done _ _)).congr fun i _ => ?_
  exact (Session.start_tryCatch _ _ _).symm

/-- A step whose outcome is taken as a result. -/
theorem attempt {r : Nat → Except Failure α}
    (h : Gives n (fun i => (s i).start (t i)) tape (fun i => (r i, t' i)) tape') :
    Gives n (fun i => (s i).attempt.start (t i)) tape (fun i => (.ok (r i), t' i)) tape' := by
  simp only [Session.start_attempt]
  exact bind h (done _ _)

theorem pure (x : Nat → α) (t : Nat → σ) (tape : Nat → Tape) :
    Gives n (fun i => (Pure.pure (x i) : Session σ α).start (t i)) tape
      (fun i => (.ok (x i), t i)) tape :=
  done _ tape

theorem get (t : Nat → σ) (tape : Nat → Tape) :
    Gives n (fun i => (MonadState.get : Session σ σ).start (t i)) tape
      (fun i => (.ok (t i), t i)) tape :=
  done _ tape

theorem modify (f : σ → σ) (t : Nat → σ) (tape : Nat → Tape) :
    Gives n (fun i => (modifyGet fun u => (PUnit.unit, f u) : Session σ PUnit).start (t i)) tape
      (fun i => (.ok ⟨⟩, f (t i))) tape :=
  done _ tape

theorem fail (e : Nat → Error) (t : Nat → σ) (tape : Nat → Tape) :
    Gives n (fun i => (Session.fail (e i) : Session σ α).start (t i)) tape
      (fun i => (.error (.error (e i)), t i)) tape :=
  done _ tape

/-- Everybody draws. -/
theorem draw (c : Nat) (t : Nat → σ) (tape : Nat → Tape) :
    Gives n (fun i => (Session.draw c : Session σ Bytes).start (t i)) tape
      (fun i => (.ok ((tape i).next c), t i)) fun i => (tape i).tail :=
  alone fun _ _ => .draw .done

end Gives

/-- Everybody succeeds, with results and states as `R` says. -/
def Everyone {σ : Type} (R : (Nat → α) → (Nat → σ) → Prop) (r : Nat → Except Failure α × σ)
    (_ : Nat → Tape) : Prop :=
  ∃ x t, r = (fun i => (.ok (x i), t i)) ∧ R x t

namespace Together

variable {σ τ : Type} {n : Nat} {tape : Nat → Tape} {R : (Nat → α) → (Nat → σ) → Prop}
variable {s : Nat → Session σ α} {t : Nat → σ}

/-- More than is needed is known of the results. -/
theorem imp {p : Nat → Protocol (Except Failure α × σ)} {R' : (Nat → α) → (Nat → σ) → Prop}
    (h : Together n p tape (Everyone R)) (himp : ∀ x t, R x t → R' x t) :
    Together n p tape (Everyone R') :=
  h.mono fun _ _ ⟨x, t, hr, hR⟩ => ⟨x, t, hr, himp x t hR⟩

variable {post : (Nat → Except Failure γ × σ) → (Nat → Tape) → Prop} {f : Nat → α → Session σ γ}
variable {x : Nat → α}

/-- A step in which everybody succeeds, and what follows it. -/
theorem andThen (h : Together n (fun i => (s i).start (t i)) tape (Everyone R))
    (h' : ∀ x t tape, R x t → Together n (fun i => (f i (x i)).start (t i)) tape post) :
    Together n (fun i => (s i >>= f i).start (t i)) tape post := by
  refine (bind h (f := fun i => Session.resume (f i)) ?_).congr (fun i _ => ?_) fun _ _ => rfl
  · rintro _ tape' ⟨x, t', rfl, hR⟩
    exact h' x t' tape' hR
  · rw [Session.start_bind]

/-- A step whose results are known, and what follows it. -/
theorem after {tape' : Nat → Tape} {t' : Nat → σ}
    (h : Gives n (fun i => (s i).start (t i)) tape (fun i => (.ok (x i), t' i)) tape')
    (h' : Together n (fun i => (f i (x i)).start (t' i)) tape' post) :
    Together n (fun i => (s i >>= f i).start (t i)) tape post := by
  refine (bind h (f := fun i => Session.resume (f i)) ?_).congr (fun i _ => ?_) fun _ _ => rfl
  · rintro _ _ ⟨rfl, rfl⟩
    exact h'
  · rw [Session.start_bind]

/-- A step on a part of the state. -/
theorem zoom {R' : (Nat → α) → (Nat → τ) → Prop} (part : τ → σ) (put : σ → τ → τ) (u : Nat → τ)
    (h : Together n (fun i => (s i).start (part (u i))) tape (Everyone R))
    (himp : ∀ x t, R x t → R' x fun i => put (t i) (u i)) :
    Together n (fun i => ((s i).zoom part put).start (u i)) tape (Everyone R') := by
  refine bind h (f := fun i (r : Except Failure α × σ) => .done (r.1, put r.2 (u i))) ?_
  rintro _ tape' ⟨x, t, rfl, hR⟩
  exact done ⟨x, _, rfl, himp x t hR⟩

/-- Nothing is left to do. -/
theorem pure (hR : R x t) :
    Together n (fun i => (Pure.pure (x i) : Session σ α).start (t i)) tape (Everyone R) :=
  done ⟨x, t, rfl, hR⟩

end Together

/-- **A run on a network** gives what the parties do together. -/
theorem Network.runOn_of_together (hsome : 0 < coins.length)
    {post : (Nat → β) → (Nat → Tape) → Prop}
    (h : Together coins.length p (Coins.tapes coins) post) :
    ∃ b tape', post b tape' ∧
      ((ofCoins coins).runOn .honest ((range coins.length).map p)).1
        = (range coins.length).map fun i => some (b i) := by
  have hsettles : ∀ w : World β,
      (∀ i q, ((range coins.length).map p)[i]? = some q → w.program i = q) →
      (∀ key, w.flight key = []) → (∀ i c, coins[i]? = some c → w.tape i = c.tape) →
      Settles coins.length (fun b _ _ => ∃ tape', post b tape') w := by
    intro w hprogram hflight hw
    refine h β _ (fun _ => .done) w ⟨?_, hflight, ?_⟩ ?_
    · intro i hi
      rw [Protocol.bind_done]
      exact hprogram i (p i) (by simp [hi])
    · intro i hi
      have hc : coins[i]? = some coins[i] := getElem?_eq_getElem hi
      rw [hw i _ hc, Coins.tapes, hc]
      rfl
    · intro b tape' w' hpost hw'
      exact .finished b hw'.program ⟨tape', hpost⟩
  obtain ⟨b, ⟨tape', hpost⟩, hrun⟩ := runOn_of_settles (by simp) hsome hsettles
  exact ⟨b, tape', hpost, hrun⟩

theorem Network.runOn_of_gives (hsome : 0 < coins.length) {tape' : Nat → Tape} {b : Nat → β}
    (h : Gives coins.length p (Coins.tapes coins) b tape') :
    ((ofCoins coins).runOn .honest ((range coins.length).map p)).1
      = (range coins.length).map fun i => some (b i) := by
  obtain ⟨_, _, ⟨rfl, rfl⟩, hrun⟩ := runOn_of_together hsome h
  exact hrun

end Beaver
