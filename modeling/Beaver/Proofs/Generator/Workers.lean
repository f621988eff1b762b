import Mathlib
import Beaver.Generator
import Beaver.Proofs.Multiplier.Sessions
import Beaver.Proofs.Together
import Beaver.Proofs.Tossing

/-!
# All multipliers at work

If the multipliers of every two parties run a job with each other, then so do all parties
with all their peers, whether they talk to them one after the other or side by side
(`Together.run`).  The same holds for setting the multipliers up (`Together.setup`).
-/

namespace Beaver

open List
open Multiplier (Job Output process)

instance {μ : Type} : Nonempty (Multiplier μ) :=
  ⟨⟨false, [], [], .expand, 0, 0, .empty, .empty, .empty⟩, ⟨false, .zero, [], .expand, 0, 0, .empty⟩, none⟩

variable {τ μ : Type} [ShareRing τ] [ShareRing μ] [Lift τ μ]

namespace Workers

/-- The workers of party `i` with these multipliers. -/
def ofMultipliers (threaded : Bool) (n i : Nat) (m : Nat → Multiplier μ) : Workers τ μ :=
  if threaded then .threaded ((others n i).map fun j => ⟨Player.link ⟨i, n⟩ j, some (m j), true, []⟩)
  else .inline ((others n i).map fun j => (Player.link ⟨i, n⟩ j, m j))

/-- What all parties have after a job: every two have got from each other what `R` says. -/
def Done (threaded : Bool) (n : Nat)
    (R : Nat → Nat → Output τ μ × Multiplier μ → Output τ μ × Multiplier μ → Prop)
    (outs : Nat → List (Output τ μ)) (w : Nat → Workers τ μ) : Prop :=
  ∃ r : Nat → Nat → Output τ μ × Multiplier μ,
    (∀ i j, i < j → j < n → R i j (r i j) (r j i)) ∧
    (outs = fun i => (others n i).map fun j => (r i j).1) ∧
    w = fun i => ofMultipliers threaded n i fun j => (r i j).2

/-- Every two parties can run their jobs with each other. -/
def PairsRun (n : Nat) (R : Nat → Nat → Output τ μ × Multiplier μ → Output τ μ × Multiplier μ → Prop)
    (job : Nat → Job τ) (m : Nat → Nat → Multiplier μ) : Prop :=
  ∀ i j, i < j → j < n → ∀ t u, Meets i j (Succeed fun o o' x y => R i j (o, x) (o', y))
    ((process (Player.link ⟨i, n⟩ j) (job i)).start (m i j))
    ((process (Player.link ⟨j, n⟩ i) (job j)).start (m j i)) [] [] t u

variable {n : Nat} {tape : Nat → Tape} {job : Nat → Job τ} {m : Nat → Nat → Multiplier μ}
variable {R : Nat → Nat → Output τ μ × Multiplier μ → Output τ μ × Multiplier μ → Prop}

section Inline

/-- The multipliers that gave these results. -/
def used (n i : Nat) (rs : List (Nat × (Output τ μ × Multiplier μ))) : List (LinkEnd × Multiplier μ) :=
  rs.map fun q => (Player.link ⟨i, n⟩ q.1, q.2.2)

/-- The multipliers for these peers. -/
def unused (n i : Nat) (m : Nat → Multiplier μ) (js : List Nat) : List (LinkEnd × Multiplier μ) :=
  js.map fun j => (Player.link ⟨i, n⟩ j, m j)

/-- What a party runs when the peers `js` are still to come, and those before gave `rs`. -/
def turns (n i : Nat) (job : Job τ) (m : Nat → Multiplier μ) (js : List Nat)
    (rs : List (Nat × (Output τ μ × Multiplier μ))) :
    Protocol (Except Failure (List (Output τ μ)) × Workers τ μ) :=
  (runInline job (unused n i m js)).bind fun p =>
    .done (p.1.map (rs.map (·.2.1) ++ ·), .inline (used n i rs ++ p.2))

/-- How it goes on after the job with peer `j`. -/
def afterTurn (n i : Nat) (job : Job τ) (m : Nat → Multiplier μ) (j : Nat) (js : List Nat)
    (rs : List (Nat × (Output τ μ × Multiplier μ))) (c : Except Failure (Output τ μ) × Multiplier μ) :
    Protocol (Except Failure (List (Output τ μ)) × Workers τ μ) :=
  match c.1 with
  | .error e =>
    .done (.error e, .inline (used n i rs ++ (Player.link ⟨i, n⟩ j, c.2) :: unused n i m js))
  | .ok out => turns n i job m js (rs ++ [(j, out, c.2)])

theorem turns_nil (n i : Nat) (job : Job τ) (m : Nat → Multiplier μ)
    (rs : List (Nat × (Output τ μ × Multiplier μ))) :
    turns n i job m [] rs = .done (.ok (rs.map (·.2.1)), .inline (used n i rs)) := by
  rw [turns, unused, map_nil, runInline]
  simp [Except.map]

theorem turns_cons (n i : Nat) (job : Job τ) (m : Nat → Multiplier μ) (j : Nat) (js : List Nat)
    (rs : List (Nat × (Output τ μ × Multiplier μ))) :
    turns n i job m (j :: js) rs
      = ((process (Player.link ⟨i, n⟩ j) job).start (m j)).bind (afterTurn n i job m j js rs) := by
  rw [turns, unused, map_cons, runInline, Protocol.monad_bind_eq, Protocol.bind_assoc]
  congr 1
  funext c
  rcases c with ⟨_ | out, m'⟩
  · rfl
  · simp only [afterTurn, turns, Protocol.monad_bind_eq, Protocol.bind_assoc]
    congr 1
    funext p
    rcases p with ⟨_ | outs, ms⟩ <;> simp [used, Except.map]

/-- **One peer after the other.** -/
theorem together_run_inline (hmeets : PairsRun n R job m) :
    Together n (fun i => (run (job i)).start (ofMultipliers false n i (m i))) tape
      (Everyone (Done false n R)) := by
  have : Nonempty (Output τ μ) := ⟨.products []⟩
  have hstart : ∀ i, (run (job i)).start (ofMultipliers false n i (m i))
      = turns n i (job i) (m i) (others n i) [] := by
    intro i
    rw [turns, used, map_nil]
    show (runInline (job i) _).bind _ = _
    congr 1
    funext p
    rcases p with ⟨_ | outs, ms⟩ <;> simp [Except.map]
  simp only [hstart]
  refine Together.inTurn (R := R) (P := fun i => turns n i (job i) (m i))
    (fun i j js rs => turns_cons n i (job i) (m i) j js rs) ?_ ?_
  · intro i j hij hj t u
    refine (hmeets i j hij hj t u).mono ?_
    rintro _ _ _ _ ⟨o, o', x, y, rfl, rfl, hR⟩
    exact ⟨(o, x), (o', y), hR, fun _ _ => rfl, fun _ _ => rfl⟩
  · intro r tape' hR
    simp only [turns_nil, used, map_map]
    exact Together.done ⟨_, _, rfl, r, hR, rfl, rfl⟩

end Inline

section Threaded

/-- A worker that has done a job. -/
def worked (n i j : Nat) (p : Output τ μ × Multiplier μ) : Worker τ μ :=
  ⟨Player.link ⟨i, n⟩ j, some p.2, true, [.ok p.1]⟩

/-- A worker between jobs. -/
def waiting (n i j : Nat) (m : Multiplier μ) : Worker τ μ :=
  ⟨Player.link ⟨i, n⟩ j, some m, true, []⟩

omit [ShareRing τ] [ShareRing μ] [Lift τ μ] in
theorem refusal_waiting (n i : Nat) (m : Nat → Multiplier μ) (js : List Nat) :
    Worker.refusal (js.map fun j => (waiting n i j (m j) : Worker τ μ)) = none := by
  induction js with
  | nil => rfl
  | cons j js ih =>
    have hrunning : (waiting n i j (m j) : Worker τ μ).running = true := rfl
    rw [map_cons, Worker.refusal, if_pos hrunning, ih]
    rfl

omit [ShareRing τ] [ShareRing μ] [Lift τ μ] in
theorem collectAll_worked (n i : Nat) (r : Nat → Output τ μ × Multiplier μ) (js : List Nat) :
    Worker.collectAll (js.map fun j => worked n i j (r j))
      = (.ok (js.map fun j => (r j).1), js.map fun j => waiting n i j (r j).2) := by
  induction js with
  | nil => rfl
  | cons j js ih =>
    simp only [map_cons, Worker.collectAll, ih]
    rfl

/-- All workers take a job and work side by side. -/
theorem start_fanOut (n i : Nat) (job : Job τ) (m : Nat → Multiplier μ) (js : List Nat) :
    (Worker.fanOut job).start (js.map fun j => waiting n i j (m j))
      = (Protocol.parallel (js.map fun j => Worker.work job (waiting n i j (m j)))).bind fun done =>
          (Session.check (Worker.collectAll done).1).start (Worker.collectAll done).2 := by
  have hrunning : ∀ w ∈ js.map fun j => (waiting n i j (m j) : Worker τ μ), w.running = true := by
    intro w hw
    obtain ⟨j, -, rfl⟩ := mem_map.mp hw
    rfl
  have htake := takeWhile_eq_self_iff.mpr hrunning
  have hdrop := dropWhile_eq_nil_iff.mpr hrunning
  rw [Worker.fanOut, Session.start_bind_of_done (Session.start_get _)]
  simp only [refusal_waiting, Option.map_none, Option.getD_none, Worker.handOut, htake, hdrop]
  rw [Session.start_bind, Session.start_perform, Protocol.monad_bind_eq, Protocol.bind_assoc,
    Protocol.bind_assoc, map_map]
  congr 1
  funext done
  simp only [Protocol.pure_eq_done, Protocol.done_bind, append_nil, Session.resume_ok]
  rw [Session.start_bind_of_done (Session.start_set _ _)]

/-- What a worker makes of a job that succeeds. -/
theorem meets_work {i j : Nat} {R : Output τ μ → Output τ μ → Multiplier μ → Multiplier μ → Prop}
    {job job' : Job τ} {m m' : Multiplier μ} {t u : Tape}
    (h : Meets i j (Succeed R) ((process (Player.link ⟨i, n⟩ j) job).start m)
      ((process (Player.link ⟨j, n⟩ i) job').start m') [] [] t u) :
    Meets i j (fun a b _ _ => ∃ p p' : Output τ μ × Multiplier μ, R p.1 p'.1 p.2 p'.2 ∧
        a = worked n i j p ∧ b = worked n j i p')
      (Worker.work job (waiting n i j m)) (Worker.work job' (waiting n j i m')) [] [] t u := by
  refine h.bind ?_
  rintro _ _ t u ⟨o, o', x, y, rfl, rfl, hR⟩
  exact .done ⟨(o, x), (o', y), hR, rfl, rfl⟩

/-- **All peers side by side.** -/
theorem together_run_threaded (hmeets : PairsRun n R job m) :
    Together n (fun i => (run (job i)).start (ofMultipliers true n i (m i))) tape
      (Everyone (Done true n R)) := by
  have : Nonempty (Worker τ μ) := ⟨waiting n 0 0 (m 0 0)⟩
  have : Nonempty (Output τ μ) := ⟨.products []⟩
  have hstart : ∀ i, (run (job i)).start (ofMultipliers true n i (m i))
      = (Protocol.parallel ((others n i).map fun j => Worker.work (job i) (waiting n i j (m i j)))).bind
          fun done => ((Session.check (Worker.collectAll done).1).start (Worker.collectAll done).2).bind
            fun p => .done (p.1, .threaded p.2) := by
    intro i
    rw [← Protocol.bind_assoc, ← start_fanOut]
    rfl
  simp only [hstart]
  refine Together.forkOf (fun i j hij hj t u => meets_work (hmeets i j hij hj t u)) ?_
  intro r tape' hR
  simp only [collectAll_worked]
  exact Together.done ⟨_, _, rfl, r, hR, rfl, rfl⟩

end Threaded

/-- **All parties run a job with all their peers**, if every two can. -/
theorem together_run (hmeets : PairsRun n R job m) (threaded : Bool) :
    Together n (fun i => (run (job i)).start (ofMultipliers threaded n i (m i))) tape
      (Everyone (Done threaded n R)) :=
  match threaded with
  | false => together_run_inline hmeets
  | true => together_run_threaded hmeets

end Workers

namespace Generator

variable {σ : Type}

/-- The base transfers of party `i`, by peer. -/
def seedsOf (n i : Nat) (s : Nat → Transfer.Seeds) : List (Nat × Transfer.Seeds) :=
  (others n i).map fun j => (j, s j)

section Inline

/-- What a party still sets up when the peers `js` are to come, after the multipliers `rs`. -/
def setups (n i : Nat) (key : Option μ) (passive : Bool) (s : Nat → Transfer.Seeds) (js : List Nat)
    (rs : List (Nat × Multiplier μ)) : Session σ (List (LinkEnd × Multiplier μ)) := do
  let rest ← setupInline ⟨i, n⟩ key passive (js.map fun j => (j, s j))
  pure ((rs.map fun q => (Player.link ⟨i, n⟩ q.1, q.2)) ++ rest)

theorem setups_cons (n i : Nat) (key : Option μ) (passive : Bool) (s : Nat → Transfer.Seeds)
    (j : Nat) (js : List Nat) (rs : List (Nat × Multiplier μ)) :
    (setups n i key passive s (j :: js) rs : Session σ _)
      = Multiplier.setup (Player.link ⟨i, n⟩ j) (s j) key passive >>= fun m =>
          setups n i key passive s js (rs ++ [(j, m)]) := by
  simp only [setups, map_cons, setupInline, bind_assoc, pure_bind, map_append,
    append_assoc, map_nil, nil_append, cons_append]

end Inline

/-- What all parties have after the setup: the multipliers of every two are as `R` says. -/
def SetUp (n : Nat) (c : Config) (key : Nat → Option μ) (R : Nat → Nat → Multiplier μ → Multiplier μ → Prop)
    (g : Nat → Generator τ μ) : Prop :=
  ∃ m : Nat → Nat → Multiplier μ, (∀ i j, i < j → j < n → R i j (m i j) (m j i)) ∧
    g = fun i => ⟨⟨i, n⟩, c.batchSize, key i, .ofMultipliers c.threaded n i (m i)⟩

variable {n : Nat} {tape : Nat → Tape} {R : Nat → Nat → Multiplier μ → Multiplier μ → Prop}
variable {c : Config} {key : Nat → Option μ} {s : Nat → Nat → Transfer.Seeds}

/-- Every two parties can set up their multipliers. -/
def PairsSetUp (n : Nat) (key : Nat → Option μ) (s : Nat → Nat → Transfer.Seeds) (passive : Bool)
    (R : Nat → Nat → Multiplier μ → Multiplier μ → Prop) : Prop :=
  ∀ i j, i < j → j < n → ∀ (σ : Type) (x y : σ) (t u : Tape), Meets i j
    (Succeed fun m m' x' y' => R i j m m' ∧ x' = x ∧ y' = y)
    ((Multiplier.setup (Player.link ⟨i, n⟩ j) (s i j) (key i) passive).start x)
    ((Multiplier.setup (Player.link ⟨j, n⟩ i) (s j i) (key j) passive).start y) [] [] t u

/-- One peer after the other. -/
theorem together_setups {passive : Bool} (h : PairsSetUp n key s passive R)
    (u : Nat → σ) :
    Together n (fun i => (setups n i (key i) passive (s i) (others n i) []).start (u i)) tape
      (Everyone fun ms u' => u' = u ∧ ∃ m : Nat → Nat → Multiplier μ,
        (∀ i j, i < j → j < n → R i j (m i j) (m j i)) ∧
        ms = fun i => (others n i).map fun j => (Player.link ⟨i, n⟩ j, m i j)) := by
  have hunfold : ∀ i j js rs, (setups n i (key i) passive (s i) (j :: js) rs).start (u i)
      = ((Multiplier.setup (Player.link ⟨i, n⟩ j) (s i j) (key i) passive).start (u i)).bind
          (Session.resume fun m => setups n i (key i) passive (s i) js (rs ++ [(j, m)])) := by
    intro i j js rs
    rw [setups_cons, Session.start_bind]
  refine Together.inTurn (R := R) (P := fun i js rs => (setups n i (key i) passive (s i) js rs).start (u i))
    hunfold ?_ ?_
  · intro i j hij hj t v
    refine (h i j hij hj σ (u i) (u j) t v).mono ?_
    rintro _ _ _ _ ⟨m, m', _, _, rfl, rfl, hR, rfl, rfl⟩
    exact ⟨m, m', hR, fun _ _ => rfl, fun _ _ => rfl⟩
  · intro m tape' hR
    simp only [setups, map_nil, setupInline, pure_bind, append_nil, map_map]
    exact Together.pure ⟨rfl, m, hR, rfl⟩

omit [ShareRing τ] [Lift τ μ] in
/-- **All parties set up multipliers with all their peers**, if every two can. -/
theorem together_ofSeeds (h : PairsSetUp n key s c.passive R) (u : Nat → σ) :
    Together n (fun i => (ofSeeds ⟨i, n⟩ { c with me := i } (key i) (seedsOf n i (s i))).start (u i)) tape
      (Everyone fun g u' => SetUp (τ := τ) n c key R g ∧ u' = u) := by
  rcases Bool.eq_false_or_eq_true c.threaded with hthreaded | hthreaded
  · have : Nonempty (Worker τ μ) := ⟨Workers.waiting n 0 0 (Classical.arbitrary _)⟩
    have hstart : ∀ i, (ofSeeds ⟨i, n⟩ { c with me := i } (key i) (seedsOf n i (s i)) :
        Session σ (Generator τ μ)).start (u i)
          = (Protocol.parallel ((others n i).map fun j =>
              Worker.start (Player.link ⟨i, n⟩ j) (s i j) (key i) c.passive)).bind fun ws =>
            .done (.ok ⟨⟨i, n⟩, c.batchSize, key i, .threaded ws⟩, u i) := by
      intro i
      simp only [ofSeeds, hthreaded, seedsOf, if_true, Session.start_bind, Session.start_perform,
        Protocol.bind_assoc, map_map]
      rfl
    have hmeets : ∀ i j, i < j → j < n → ∀ t v, Meets i j (fun a b _ _ => ∃ m m', R i j m m' ∧
        a = Workers.waiting n i j m ∧ b = Workers.waiting n j i m')
        (Worker.start (τ := τ) (Player.link ⟨i, n⟩ j) (s i j) (key i) c.passive)
        (Worker.start (τ := τ) (Player.link ⟨j, n⟩ i) (s j i) (key j) c.passive) [] [] t v := by
      intro i j hij hj t v
      refine (h i j hij hj Unit () () t v).bind ?_
      rintro _ _ _ _ ⟨m, m', _, _, rfl, rfl, hR, -, -⟩
      exact .done ⟨m, m', hR, rfl, rfl⟩
    refine Together.congr (Together.forkOf hmeets ?_) (fun i _ => (hstart i).symm) fun _ _ => rfl
    intro m tape' hR
    refine Together.done ⟨_, _, rfl, ⟨m, hR, ?_⟩, rfl⟩
    rw [hthreaded]
    rfl
  · have hstart : ∀ i, (ofSeeds ⟨i, n⟩ { c with me := i } (key i) (seedsOf n i (s i)) :
        Session σ (Generator τ μ)) = setups n i (key i) c.passive (s i) (others n i) [] >>= fun ms =>
          pure ⟨⟨i, n⟩, c.batchSize, key i, .inline ms⟩ := by
      intro i
      simp [ofSeeds, hthreaded, setups, seedsOf]
    refine Together.congr (Together.andThen (together_setups h u) ?_)
      (fun i _ => congrArg (fun p => Session.start p (u i)) (hstart i).symm) fun _ _ => rfl
    rintro _ _ tape' ⟨rfl, m, hR, rfl⟩
    refine Together.pure ⟨⟨m, hR, ?_⟩, rfl⟩
    rw [hthreaded]
    rfl

end Generator

end Beaver
