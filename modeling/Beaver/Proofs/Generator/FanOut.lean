import Beaver.Proofs.Generator.Resting
import Beaver.Proofs.Multiplier.Sessions

/-!
# Calls of a generator with worker threads

A generator hands a job to all its workers and collects their results, whatever the threads do
in the meantime and whatever earlier calls have left behind.  A call that succeeds has the
results of its own job, one for each peer in ascending order, and no call succeeds after one
that has failed (`Pool.calls_never_stale`).
-/

namespace Beaver

open Multiplier (Job Output)

variable {τ μ : Type}

namespace Pool

variable [ShareRing τ] [ShareRing μ] [Lift τ μ]

/-- **Calls never mix up results, in whatever order threads and calls make their steps.**  For
each peer, in ascending order, there is a thread, and its record is that of a worker that runs
its setup and then its jobs one after the other.  The results of a call that succeeds are those
that the threads have recorded for its own job, the one of the same number.  No call succeeds
after one that has failed.  And what a generator does in a call that keeps all its workers, with
threads at rest and room in their outboxes, is one of these runs. -/
theorem calls_never_stale (p : Player) (seeds : Nat → Transfer.Seeds) (key : Option μ)
    (passive : Bool) {s : Pool τ μ}
    (h : (launch p fun peer => Worker.start (p.link peer) (seeds peer) key passive).Reaches s) :
    p.peers.Pairwise (· < ·) ∧
    List.Forall₂ (fun peer t => ∃ task q,
      Worker.Serves (Worker.start (p.link peer) (seeds peer) key passive) t.log task q)
      p.peers s.threads ∧
    (∀ (c : Nat) job outs, s.answers[c]? = some (job, .ok outs) →
      List.Forall₂ (fun out t => t.log[c]? = some (job, out)) outs s.threads) ∧
    (∀ (c d : Nat) job e answer, c < d → s.answers[c]? = some (job, .error e) →
      s.answers[d]? = some answer → ∃ e', answer.2 = .error e') ∧
    ∀ (job : Job τ) (ws ws' : List (Worker τ μ)) es r, s.Resting ws →
      (∀ w ∈ ws, w.outbox.length < queueRoom) → ws'.length = ws.length →
      ((Workers.run job).start (.threaded ws)).Follows es (.done (r, .threaded ws')) →
      ∃ s' answer, s.Reaches s' ∧ s'.Resting ws' ∧ r = answer.mapError .error ∧
        s'.answers = s.answers ++ [(job, answer)] := by
  have hconsistent := Reaches.consistent (fun _ _ _ hstart => (Worker.outcome_of_start hstart).2) h
  refine ⟨List.pairwise_lt_range.filter _, hconsistent.accounts.imp ?_, hconsistent.current, ?_, ?_⟩
  · rintro peer t ⟨given, taken, haccounts⟩
    exact haccounts.record.1
  · intro c d job e answer hcd hc hd
    obtain ⟨hlt, hc⟩ := List.getElem?_eq_some_iff.mp hc
    obtain ⟨hlt', hd⟩ := List.getElem?_eq_some_iff.mp hd
    have hlasting := List.pairwise_iff_getElem.mp hconsistent.lasting c d hlt hlt' hcd
    rw [hc, hd] at hlasting
    exact hlasting ⟨e, rfl⟩
  · intro job ws ws' es r hrests hroom hlength hrun
    exact hrests.run hroom hrun hlength

section Sample

variable {job : Job τ} {ws : List (Worker τ μ)}

omit [ShareRing τ] [Lift τ μ] in
/-- Without a key, nothing is exchanged in the setup of a worker. -/
theorem exists_start_unkeyed (passive : Bool) : ∃ m : Multiplier μ, m.auth = none ∧
    ∀ l, Worker.start (τ := τ) l Multiplier.sampleSeeds (none : Option μ) passive
      = .done ⟨l, some m, true, []⟩ := by
  have hseeds := Multiplier.consistent_sampleSeeds
  obtain ⟨r, s, hr, hs, -⟩ := Transfer.paired_ofSeeds hseeds.sent hseeds.choices passive
  rw [← hseeds.received] at hs
  refine ⟨⟨r, s, none⟩, rfl, fun l => ?_⟩
  simp only [Worker.start, Multiplier.setup, hr, hs]
  rfl

variable {l : LinkEnd} {m : Multiplier μ} {out : List (Except Error (Output τ μ))}

/-- Inputs of a party at neither end of the link. -/
theorem work_input {owner : Nat} (hme : owner ≠ l.me) (hpeer : owner ≠ l.peer) (values : List τ) :
    Worker.work (.input owner values) ⟨l, some m, true, out⟩
      = .done ⟨l, some m, true, out ++ [.ok (.tags (List.replicate values.length 0))]⟩ := by
  have hinput : Multiplier.authenticateInput (μ := μ) l owner values
      = pure (List.replicate values.length 0) := if_pos ⟨hme, hpeer⟩
  simp only [Worker.work, Worker.work.l, Multiplier.process, hinput]
  rfl

/-- Nothing can be authenticated without a key. -/
theorem work_authenticate (hm : m.auth = none) (values : List τ) :
    Worker.work (.authenticate values) ⟨l, some m, true, out⟩
      = .done ⟨l, some m, false, out ++ [.error (.config .noKeyHere)]⟩ := by
  obtain ⟨receiver, sender, auth⟩ := m
  cases hm
  rfl

/-- A call for which no worker needs its peer. -/
theorem start_run_of_taken (worked : List (Worker τ μ)) (htaken : Worker.refusal ws = none)
    (hwork : ws.map (Worker.work job) = worked.map .done) :
    (Workers.run job).start (.threaded ws)
      = .done ((Worker.collectAll worked).1.mapError .error, .threaded (Worker.collectAll worked).2) := by
  have hrunning := Worker.running_of_refusal_eq_none htaken
  rw [Worker.start_run_threaded, Worker.start_fanOut_of_taken htaken, Worker.handOut,
    List.takeWhile_eq_self_iff.mpr hrunning, List.dropWhile_eq_nil_iff.mpr hrunning, hwork,
    Protocol.parallel_map_done]
  simp

/-- A call that the first worker refuses. -/
theorem start_run_of_refused {w : Worker τ μ} (hw : w.running = false) :
    (Workers.run job).start (.threaded (w :: ws))
      = .done (.error (.error w.failure.1), .threaded (w.failure.2 :: ws)) := by
  have hrefused : Worker.refusal (w :: ws) = some (w.failure.1, w.failure.2 :: ws) := by
    rw [Worker.refusal, if_neg (by simp [hw])]
  have hw' : w.failure.2.running = false := hw
  have hnone : Protocol.parallel ([] : List (Protocol (Worker τ μ))) = .done [] :=
    Protocol.parallel_map_done []
  rw [Worker.start_run_threaded, Worker.start_fanOut_of_refused hrefused, Worker.handOut]
  simp [hw', hnone]

/-- What three calls return to the first of three parties without a key: the second one fails with
every peer, and leaves an error behind that nobody collects. -/
def sampleAnswers : List (Job Word64 × Except Error (List (Output Word64 Word128))) :=
  [(.input 5 [1, 0], .ok [.tags [0, 0], .tags [0, 0]]),
    (.authenticate [1], .error (.config .noKeyHere)), (.input 5 [1], .error (.stopped 1))]

/-- A worker of the first of three parties. -/
def sampleWorker (m : Multiplier Word128) (peer : Nat) (running : Bool)
    (left : List (Except Error (Output Word64 Word128))) : Worker Word64 Word128 :=
  ⟨Player.link ⟨0, 3⟩ peer, some m, running, left⟩

/-- Its workers after the setup. -/
theorem follows_setup_sample {m : Multiplier Word128}
    (hstart : ∀ l, Worker.start (τ := Word64) l Multiplier.sampleSeeds none true
      = .done ⟨l, some m, true, []⟩) :
    ((Generator.ofSeeds ⟨0, 3⟩ { parties := 3, passive := true } none
      ((Player.peers ⟨0, 3⟩).map fun peer => (peer, Multiplier.sampleSeeds)) :
        Session Unit (Generator Word64 Word128)).start ()).Follows []
      (.done (.ok ⟨⟨0, 3⟩, 1024, none,
        .threaded [sampleWorker m 1 true [], sampleWorker m 2 true []]⟩, ())) := by
  have hpeers : (Player.peers ⟨0, 3⟩).map (fun peer => Protocol.done (sampleWorker m peer true []))
      = [sampleWorker m 1 true [], sampleWorker m 2 true []].map .done := rfl
  have hsame : ∀ peer, Worker.start (Player.link ⟨0, 3⟩ peer) Multiplier.sampleSeeds none true
      = .done (sampleWorker m peer true []) := fun peer => hstart _
  rw [start_ofSeeds none (fun _ => Multiplier.sampleSeeds) () rfl]
  simp only [hsame]
  rw [hpeers, Protocol.parallel_map_done]
  exact .nil

omit [ShareRing τ] [ShareRing μ] [Lift τ μ] in
theorem eq_of_mapError {a b : Except Error (List (Output τ μ))}
    (h : a.mapError Failure.error = b.mapError .error) : b = a := by
  cases a with
  | error e =>
    cases b with
    | error e' => rw [Failure.error.inj (Except.error.inj h)]
    | ok outs => cases h
  | ok outs =>
    cases b with
    | error e => cases h
    | ok outs' => rw [Except.ok.inj h]

/-- The three calls can be made. -/
theorem exists_reaches_sample : ∃ s : Pool Word64 Word128,
    (launch ⟨0, 3⟩ fun peer =>
      Worker.start (Player.link ⟨0, 3⟩ peer) Multiplier.sampleSeeds none true).Reaches s ∧
    s.answers = sampleAnswers := by
  obtain ⟨m, hm, hstart⟩ := exists_start_unkeyed (τ := Word64) (μ := Word128) true
  let e : Error := .config .noKeyHere
  let zeros : Except Error (Output Word64 Word128) := .ok (.tags [0, 0])
  let ready := [sampleWorker m 1 true [], sampleWorker m 2 true []]
  let ended := [sampleWorker m 1 false [], sampleWorker m 2 false [.error e]]
  have hfirst : ((Workers.run (.input 5 [1, 0])).start (.threaded ready)).Follows []
      (.done (.ok [.tags [0, 0], .tags [0, 0]], .threaded ready)) := by
    have hwork : ready.map (Worker.work (.input 5 [1, 0]))
        = [sampleWorker m 1 true [zeros], sampleWorker m 2 true [zeros]].map .done :=
      congrArg₂ (fun p q => [p, q]) (work_input (by decide) (by decide) _)
        (work_input (by decide) (by decide) _)
    rw [start_run_of_taken _ rfl hwork]
    exact .nil
  have hsecond : ((Workers.run (.authenticate [1])).start (.threaded ready)).Follows []
      (.done (.error (.error e), .threaded ended)) := by
    have hwork : ready.map (Worker.work (.authenticate [1]))
        = [sampleWorker m 1 false [.error e], sampleWorker m 2 false [.error e]].map .done :=
      congrArg₂ (fun p q => [p, q]) (work_authenticate hm _) (work_authenticate hm _)
    rw [start_run_of_taken _ rfl hwork]
    exact .nil
  have hthird : ((Workers.run (.input 5 [1])).start (.threaded ended)).Follows []
      (.done (.error (.error (.stopped 1)), .threaded ended)) := by
    rw [start_run_of_refused rfl]
    exact .nil
  obtain ⟨s₀, hreach₀, hrests₀, hanswers₀⟩ :=
    reaches_ofSeeds rfl (follows_setup_sample hstart) rfl
  obtain ⟨s₁, a₁, hreach₁, hrests₁, ha₁, hanswers₁⟩ :=
    hrests₀.run (by simp [sampleWorker, queueRoom]) hfirst rfl
  obtain ⟨s₂, a₂, hreach₂, hrests₂, ha₂, hanswers₂⟩ :=
    hrests₁.run (by simp [ready, sampleWorker, queueRoom]) hsecond rfl
  obtain ⟨s₃, a₃, hreach₃, -, ha₃, hanswers₃⟩ :=
    hrests₂.run (by simp [ended, sampleWorker, queueRoom]) hthird rfl
  refine ⟨s₃, hreach₀.trans (hreach₁.trans (hreach₂.trans hreach₃)), ?_⟩
  have hok := eq_of_mapError (a := .ok [.tags [0, 0], .tags [0, 0]]) ha₁
  have herror := eq_of_mapError (a := .error e) ha₂
  have hstopped := eq_of_mapError (a := .error (.stopped 1)) ha₃
  rw [hanswers₃, hanswers₂, hanswers₁, hanswers₀, hok, herror, hstopped]
  rfl

/-- After a call that has succeeded and one that has failed, the results of the first are still
those of its job, and there is a third that fails. -/
theorem calls_never_stale_refused : ∃ s : Pool Word64 Word128,
    (launch ⟨0, 3⟩ fun peer =>
      Worker.start (Player.link ⟨0, 3⟩ peer) Multiplier.sampleSeeds none true).Reaches s ∧
    s.answers = sampleAnswers ∧
    List.Forall₂ (fun out t => t.log[0]? = some (.input 5 [1, 0], out))
      [.tags [0, 0], .tags [0, 0]] s.threads ∧
    ∀ answer, s.answers[2]? = some answer → ∃ e, answer.2 = .error e := by
  obtain ⟨s, hreach, hanswers⟩ := exists_reaches_sample
  obtain ⟨-, -, hcurrent, hlasting, -⟩ := calls_never_stale ⟨0, 3⟩ (fun _ => Multiplier.sampleSeeds)
    none true hreach
  refine ⟨s, hreach, hanswers, hcurrent 0 _ _ (by rw [hanswers]; rfl), ?_⟩
  intro answer hanswer
  exact hlasting 1 2 (.authenticate [1]) (.config .noKeyHere) answer (by decide) (by rw [hanswers]; rfl)
    hanswer

end Sample

end Pool

end Beaver
