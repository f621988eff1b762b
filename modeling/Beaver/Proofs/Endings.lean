import Beaver.Proofs.Outcomes
import Beaver.Proofs.Together

/-!
# How a step ends

That a step ends is read backwards: how a composed step ends tells how its parts have ended
(`Ends.of_bind`), and a call after the other leaves one outcome for each (`ends_runEach_cons`).
-/

namespace Beaver

open List

variable {σ τ α β : Type}

namespace Protocol

variable {p : Protocol α} {f : α → Protocol β}

/-- A program that is continued has come to its end only if both parts have. -/
theorem Follows.of_bind_done {es : List Event} {b : β} (h : Follows (p.bind f) es (.done b)) :
    ∃ es₁ es₂ a, es = es₁ ++ es₂ ∧ Follows p es₁ (.done a) ∧ Follows (f a) es₂ (.done b) := by
  rcases h.of_bind with ⟨p', hp', hdone⟩ | hboth
  · -- the first program is done, and what follows it is done at once
    cases p' with
    | done a => exact ⟨es, [], a, (append_nil es).symm, hp', hdone ▸ .nil⟩
    | send _ _ _ | recv _ _ | draw _ _ | close _ _ => cases hdone
  · exact hboth

/-- Both parts of a program, one after the other. -/
theorem Follows.bind_done {es₁ es₂ : List Event} {a : α} {q : Protocol β}
    (h : Follows p es₁ (.done a)) (h' : Follows (f a) es₂ q) :
    Follows (p.bind f) (es₁ ++ es₂) q := by
  generalize hend : Protocol.done a = p' at h
  induction h with
  | nil =>
    subst hend
    exact h'
  | cons hdoes _ ih =>
    refine .cons ?_ (ih hend)
    cases hdoes with
    | send => exact .send
    | recv i m => exact .recv i m
    | draw hlength => exact .draw hlength
    | close => exact .close

/-- What a result is made into does not change how a program comes to its end. -/
theorem follows_map {g : α → β} {es : List Event} {b : β} :
    Follows (p.bind fun a => .done (g a)) es (.done b) ↔ ∃ a, Follows p es (.done a) ∧ b = g a := by
  constructor
  · intro h
    obtain ⟨es₁, es₂, a, rfl, hfirst, hsecond⟩ := h.of_bind_done
    obtain ⟨rfl, hdone⟩ := hsecond.of_done
    cases hdone
    rw [append_nil]
    exact ⟨a, hfirst, rfl⟩
  · rintro ⟨a, h, rfl⟩
    rw [← append_nil es]
    exact h.bind_done .nil

section Parallel

variable {ts : List (Protocol β)} {bs : List β}

/-- One of several programs has made a step. -/
theorem forall₂_follows_of_set {l : Nat} {t t' : Protocol β} {e : Event} (hl : ts[l]? = some t)
    (hdoes : t.Does e t')
    (h : Forall₂ (fun t b => ∃ es, Follows t es (.done b)) (ts.set l t') bs) :
    Forall₂ (fun t b => ∃ es, Follows t es (.done b)) ts bs := by
  induction ts generalizing l bs with
  | nil => cases hl
  | cons u ts ih =>
    cases l with
    | zero =>
      cases hl
      cases h with
      | cons hfirst hrest =>
        obtain ⟨es, hes⟩ := hfirst
        exact .cons ⟨e :: es, .cons hdoes hes⟩ hrest
    | succ l =>
      cases h with
      | cons hfirst hrest => exact .cons hfirst (ih hl hrest)

/-- If no program is dropped, all are done. -/
theorem forall₂_follows_result? (h : (ts.filterMap result?).length = ts.length) :
    Forall₂ (fun t b => ∃ es, Follows t es (.done b)) ts (ts.filterMap result?) := by
  induction ts with
  | nil => exact .nil
  | cons t ts ih =>
    have hle := length_filterMap_le result? ts
    cases t with
    | done b =>
      have hdone : result? (done b) = some b := rfl
      rw [filterMap_cons_some hdone] at h ⊢
      exact .cons ⟨[], .nil⟩ (ih (Nat.succ.inj h))
    | send _ _ _ | recv _ _ | draw _ _ | close _ _ =>
      rw [filterMap_cons_none rfl, length_cons] at h
      omega

/-- **What comes out of programs side by side comes out of each of them.** -/
theorem follows_of_parallel {es : List Event} (h : (parallel ts).Follows es (.done bs))
    (hlength : bs.length = ts.length) :
    Forall₂ (fun t b => ∃ es, Follows t es (.done b)) ts bs := by
  generalize hp : parallel ts = p at h
  generalize hend : Protocol.done bs = q at h
  induction h generalizing ts with
  | nil =>
    have hview := parallel_view ts
    rw [hp, ← hend] at hview
    cases hview with
    | done _ => exact forall₂_follows_result? hlength
  | cons hdoes _ ih =>
    have hview := parallel_view ts
    rw [hp] at hview
    cases hview with
    | done _ => cases hdoes
    | send hl =>
      cases hdoes
      exact forall₂_follows_of_set hl .send (ih (by rwa [length_set]) rfl hend)
    | draw hl =>
      cases hdoes with
      | draw hbytes =>
        exact forall₂_follows_of_set hl (.draw hbytes) (ih (by rwa [length_set]) rfl hend)
    | close hl =>
      cases hdoes
      exact forall₂_follows_of_set hl .close (ih (by rwa [length_set]) rfl hend)
    | recv _ hfrom _ _ =>
      cases hdoes with
      | recv k m =>
        obtain ⟨l, ps, f, k', hl, -, hnext⟩ := hfrom k
        refine forall₂_follows_of_set hl (.recv k' m) (ih ?_ (hnext m).symm hend)
        rwa [length_set]

end Parallel

end Protocol

namespace Session

variable {s : Session σ α} {t u : σ} {es : List Event}

/-- A step that is done at once ends in one way only. -/
theorem ends_of_start {v : σ} {r r' : Except Failure α} (hstart : s.start t = .done (r', v)) :
    Ends s t es r u ↔ es = [] ∧ r = r' ∧ u = v := by
  constructor
  · intro h
    rw [Ends, hstart] at h
    obtain ⟨rfl, hdone⟩ := h.of_done
    cases hdone
    exact ⟨rfl, rfl, rfl⟩
  · intro h
    obtain ⟨rfl, rfl, rfl⟩ := h
    rw [Ends, hstart]
    exact .nil

namespace Ends

variable {t u : σ} {es : List Event}
variable {s : Session σ α} {r : Except Failure α} {f : α → Session σ β}

theorem of_start (h : s.start t = .done (r, u)) : Ends s t [] r u :=
  (ends_of_start h).mpr ⟨rfl, rfl, rfl⟩

/-- **How two steps in turn have ended.**  The first has failed, or it has a result and the
second goes on from there. -/
theorem of_bind {r : Except Failure β} (h : Ends (s >>= f) t es r u) :
    (∃ e, r = .error e ∧ Ends s t es (.error e) u) ∨
      ∃ es₁ es₂ a v, es = es₁ ++ es₂ ∧ Ends s t es₁ (.ok a) v ∧ Ends (f a) v es₂ r u := by
  rw [Ends, start_bind] at h
  obtain ⟨es₁, es₂, ⟨r', v⟩, rfl, hfirst, hsecond⟩ := h.of_bind_done
  cases r' with
  | ok a => exact Or.inr ⟨es₁, es₂, a, v, rfl, hfirst, hsecond⟩
  | error e =>
    obtain ⟨rfl, hdone⟩ := hsecond.of_done
    cases hdone
    refine Or.inl ⟨e, rfl, ?_⟩
    rw [append_nil]
    exact hfirst

/-- How two steps in turn have succeeded. -/
theorem of_bind_ok {b : β} (h : Ends (s >>= f) t es (.ok b) u) :
    ∃ es₁ es₂ a v, es = es₁ ++ es₂ ∧ Ends s t es₁ (.ok a) v ∧ Ends (f a) v es₂ (.ok b) u := by
  rcases h.of_bind with ⟨e, he, -⟩ | hboth
  · cases he
  · exact hboth

theorem andThen {es₁ es₂ : List Event} {a : α} {v : σ} {r : Except Failure β}
    (h : Ends s t es₁ (.ok a) v) (h' : Ends (f a) v es₂ r u) :
    Ends (s >>= f) t (es₁ ++ es₂) r u := by
  rw [Ends, start_bind]
  exact Protocol.Follows.bind_done h h'

/-- A step that has failed lets nothing follow. -/
theorem andThen_error {e : Failure} (h : Ends s t es (.error e) u) :
    Ends (s >>= f) t es (.error e) u := by
  rw [Ends, start_bind, ← append_nil es]
  exact Protocol.Follows.bind_done h .nil

/-- How a step on a part of the state has ended. -/
theorem of_zoom {part : σ → τ} {put : τ → σ → σ} {s : Session τ α}
    (h : Ends (s.zoom part put) t es r u) : ∃ v, Ends s (part t) es r v ∧ u = put v t := by
  rw [Ends, start_zoom, Protocol.follows_map] at h
  obtain ⟨⟨r', v⟩, hv, heq⟩ := h
  cases heq
  exact ⟨v, hv, rfl⟩

/-- What a result is made into does not change how the step ends. -/
theorem map (f : α → β) (h : Ends s t es r u) : Ends (f <$> s) t es (r.map f) u := by
  rw [Ends, start_map, Protocol.follows_map]
  exact ⟨(r, u), h, rfl⟩

/-- How a step has ended whose result was made into another. -/
theorem of_map {f : α → β} {r : Except Failure β} (h : Ends (f <$> s) t es r u) :
    ∃ r', r = r'.map f ∧ Ends s t es r' u := by
  rw [Ends, start_map, Protocol.follows_map] at h
  obtain ⟨⟨r', v⟩, hr', heq⟩ := h
  cases heq
  exact ⟨r', rfl, hr'⟩

end Ends

theorem ends_map {f : α → β} {b : β} :
    Ends (f <$> s) t es (.ok b) u ↔ ∃ a, Ends s t es (.ok a) u ∧ f a = b := by
  constructor
  · intro h
    obtain ⟨_ | a, hr, hs⟩ := h.of_map
    · cases hr
    · exact ⟨a, hs, (Except.ok.inj hr).symm⟩
  · intro h
    obtain ⟨a, hs, rfl⟩ := h
    exact hs.map f

section Elementary

variable {t u : σ} {es : List Event} {r : Except Failure α} {a : α}

theorem ends_pure : Ends (pure a) t es r u ↔ es = [] ∧ r = .ok a ∧ u = t :=
  ends_of_start rfl

theorem not_ends_fail {e : Error} : ¬ Ends (fail e) t es (.ok a) u := fun h =>
  nomatch ((ends_of_start rfl).mp h).2.1

theorem ends_get_bind {f : σ → Session σ α} : Ends (get >>= f) t es r u ↔ Ends (f t) t es r u :=
  Iff.rfl

theorem ends_modify_bind {g : σ → σ} {f : PUnit → Session σ α} :
    Ends (modify g >>= f) t es r u ↔ Ends (f ⟨⟩) (g t) es r u :=
  Iff.rfl

/-- A result that was checked is one. -/
theorem ends_check {r : Except Error α} (h : Ends (check r) t es (.ok a) u) :
    r = .ok a ∧ es = [] ∧ u = t := by
  cases r with
  | ok b =>
    obtain ⟨rfl, hb, rfl⟩ := ends_pure.mp h
    cases hb
    exact ⟨rfl, rfl, rfl⟩
  | error e => exact absurd h not_ends_fail

end Elementary

/-- **One call after the other**, whatever becomes of those before, has one outcome for each. -/
theorem ends_runEach_cons {step : β → Session σ α} {b : β} {bs : List β}
    {outcomes : List (Except Failure α)} :
    Ends (runEach step (fun _ => true) (b :: bs)) t es (.ok outcomes) u ↔
      ∃ es₁ es₂ o v rest, es = es₁ ++ es₂ ∧ outcomes = o :: rest ∧ o ≠ .error .fault ∧
        Ends (step b) t es₁ o v ∧ Ends (runEach step (fun _ => true) bs) v es₂ (.ok rest) u := by
  have hattempt : ∀ {o : Except Failure (Except Failure α)} {es₁ v},
      Ends (attempt (step b)) t es₁ o v ↔ ∃ r, o = .ok r ∧ Ends (step b) t es₁ r v := by
    intro o es₁ v
    rw [Ends, start_attempt, Protocol.follows_map]
    constructor
    · rintro ⟨⟨r, w⟩, h, heq⟩
      cases heq
      exact ⟨r, rfl, h⟩
    · rintro ⟨r, rfl, h⟩
      exact ⟨(r, v), h, rfl⟩
  simp only [runEach, Bool.or_true, if_true]
  constructor
  · intro h
    obtain ⟨es₁, es₂, o, v, rfl, hfirst, hsecond⟩ := h.of_bind_ok
    obtain ⟨o, ho, hstep⟩ := hattempt.mp hfirst
    cases ho
    have hfault : o ≠ .error .fault := by
      intro ho
      subst ho
      obtain ⟨-, hr, -⟩ := (ends_of_start (start_throw _ _)).mp hsecond
      cases hr
    have hgo : Ends (do
        let rest ← runEach step (fun _ => true) bs
        pure (o :: rest)) v es₂ (.ok outcomes) u := by
      match o, hfault, hsecond with
      | .ok _, _, h => exact h
      | .error (.error _), _, h => exact h
    rw [bind_pure_comp, ends_map] at hgo
    obtain ⟨rest, hrest, rfl⟩ := hgo
    exact ⟨es₁, es₂, o, v, rest, rfl, rfl, hfault, hstep, hrest⟩
  · intro h
    obtain ⟨es₁, es₂, o, v, rest, rfl, rfl, hfault, hstep, hrest⟩ := h
    refine (hattempt.mpr ⟨o, rfl, hstep⟩).andThen ?_
    have hgo : Ends (do
        let rest ← runEach step (fun _ => true) bs
        pure (o :: rest)) v es₂ (.ok (o :: rest)) u := by
      rw [bind_pure_comp]
      exact hrest.map _
    match o, hfault, hgo with
    | .ok _, _, h => exact h
    | .error (.error _), _, h => exact h

end Session

section Together

variable {i n : Nat}

/-- A step of a party in a run is one of its events. -/
theorem Moves.exists_does {w w' : World α} (h : Moves i w w') :
    ∃ e, Protocol.Does (w.program i) e (w'.program i) := by
  cases h with
  | send hp =>
    simp only [hp, World.post, Function.update_self]
    exact ⟨_, .send⟩
  | recv k hp _ _ =>
    simp only [hp, World.take, Function.update_self]
    exact ⟨_, .recv k _⟩
  | draw hp =>
    simp only [hp, World.drawn, Function.update_self]
    exact ⟨_, .draw ((w.tape i).length_bytes 0 _)⟩

/-- A run that settles has brought every party to its result. -/
theorem Settles.exists_follows {post : Outcome α} {w : World α} (hi : i < n)
    (h : Settles n post w) :
    ∃ es a flight tape, (w.program i).Follows es (.done (a i)) ∧ post a flight tape := by
  induction h with
  | @finished w a hdone hpost =>
    refine ⟨[], a, w.flight, w.tape, ?_, hpost⟩
    rw [hdone i hi]
    exact .nil
  | @running w hlive _ _ ih =>
    obtain ⟨k, w', hk, hmoves⟩ := hlive
    obtain ⟨es, a, flight, tape, hfollows, hpost⟩ := ih k w' hk hmoves
    by_cases hki : i = k
    · subst hki
      obtain ⟨e, hdoes⟩ := hmoves.exists_does
      exact ⟨e :: es, a, flight, tape, .cons hdoes hfollows, hpost⟩
    · rw [hmoves.program_other hki] at hfollows
      exact ⟨es, a, flight, tape, hfollows, hpost⟩

/-- What all parties do together, each of them does. -/
theorem Gives.exists_ends {s : Nat → Session σ α} {t u : Nat → σ} {r : Nat → Except Failure α}
    {tape tape' : Nat → Tape}
    (h : Gives n (fun i => (s i).start (t i)) tape (fun i => (r i, u i)) tape') (hi : i < n) :
    ∃ es, Session.Ends (s i) (t i) es (r i) (u i) := by
  have hsettles : Settles n (fun a _ _ => ∀ i < n, a i = (r i, u i))
      ⟨fun i => (s i).start (t i), fun _ => [], tape⟩ := by
    refine h _ _ (fun _ => .done) _ ⟨fun i _ => (Protocol.bind_done _).symm, fun _ => rfl,
      fun _ _ => rfl⟩ ?_
    intro b _ w' hb hw'
    obtain ⟨rfl, -⟩ := hb
    exact .finished _ hw'.program fun _ _ => rfl
  obtain ⟨es, a, -, -, hfollows, ha⟩ := hsettles.exists_follows hi
  rw [ha i hi] at hfollows
  exact ⟨es, hfollows⟩

end Together

end Beaver
