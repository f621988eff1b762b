import Beaver.Generator
import Beaver.Proofs.Endings

/-!
# Worker threads

A worker runs in a thread of its own.  It takes jobs from an inbox, works on them and delivers
the results to an outbox; both have room for a few items.  After an error, a failed setup or a
panic, which may come at any time, it is on its way out: it gives up the two queues one at a
time, so that for a while it may still be given jobs that it will never take.

A result carries no mark of the job it belongs to.  But the queues keep their order, and an
error is the last that comes out of a thread.  So the number of a result tells its job: this is
the account of what a thread was given and what was taken from it (`Thread.Accounts`), which
every step of the thread keeps (`Thread.Accounts.step`).
-/

namespace Beaver

open List
open Multiplier (Job Output)
open Protocol (Follows)

variable {τ μ : Type}

namespace Worker

/-- The worker whose results have been taken away. -/
def emptied (w : Worker τ μ) : Worker τ μ :=
  { w with outbox := [] }

/-- It is ready for a job. -/
structure Idle (w : Worker τ μ) : Prop where
  running : w.running = true
  multiplier : w.multiplier.isSome = true
  outbox : w.outbox = []

/-- It has stopped, and leaves one error at most. -/
structure Failed (w : Worker τ μ) : Prop where
  running : w.running = false
  outbox : w.outbox = [] ∨ ∃ e, w.outbox = [.error e]

theorem Idle.of_emptied {w : Worker τ μ} (h : w.emptied.Idle) (hout : w.outbox = []) : w.Idle :=
  ⟨h.running, h.multiplier, hout⟩

/-- How a worker may come out of a job, or of its setup. -/
def Outcome (task : Option (Job τ)) (w : Worker τ μ) : Prop :=
  w.Failed ∨ w.emptied.Idle ∧
    if task.isSome then ∃ out, w.outbox = [.ok out] else w.outbox = []

section Programs

variable [ShareRing μ] {l : LinkEnd} {seeds : Transfer.Seeds} {key : Option μ} {passive : Bool}
  {es : List Event} {w : Worker τ μ}

/-- What comes out of the setup. -/
theorem follows_start (h : (start l seeds key passive).Follows es (.done w)) :
    (∃ m, w = ⟨l, some m, true, []⟩) ∨
      ∃ left : Option Error, w = ⟨l, none, false, left.toList.map .error⟩ := by
  obtain ⟨es₁, es₂, ⟨r, u⟩, rfl, -, hrest⟩ := Follows.of_bind_done h
  cases r with
  | ok m =>
    obtain ⟨-, hdone⟩ := hrest.of_done
    exact Or.inl ⟨m, Protocol.done.inj hdone⟩
  | error failure =>
    cases hrest with
    | cons hdoes hs =>
      cases hdoes
      obtain ⟨-, hdone⟩ := hs.of_done
      rw [Protocol.done.inj hdone]
      cases failure with
      | error e => exact Or.inr ⟨some e, rfl⟩
      | fault => exact Or.inr ⟨none, rfl⟩

theorem outcome_of_start (h : (start l seeds key passive).Follows es (.done w)) :
    w.link = l ∧ w.Outcome none := by
  rcases follows_start h with ⟨m, rfl⟩ | ⟨left, rfl⟩
  · exact ⟨rfl, Or.inr ⟨⟨rfl, rfl, rfl⟩, rfl⟩⟩
  · cases left with
    | none => exact ⟨rfl, Or.inl ⟨rfl, Or.inl rfl⟩⟩
    | some e => exact ⟨rfl, Or.inl ⟨rfl, Or.inr ⟨e, rfl⟩⟩⟩

variable [ShareRing τ] [Lift τ μ] {job : Job τ} {w' : Worker τ μ}

/-- **What comes out of a job.**  The worker does not look at its outbox. -/
theorem follows_work (hm : w.multiplier.isSome = true) (hr : w.running = true)
    (h : (work job w).Follows es (.done w')) :
    ∃ v, w' = { v with outbox := w.outbox ++ v.outbox } ∧ v.link = w.link ∧ v.Outcome (some job) ∧
      (work job w.emptied).Follows es (.done v) := by
  obtain ⟨m, hm⟩ := Option.isSome_iff_exists.mp hm
  simp only [work, emptied, hm] at h ⊢
  obtain ⟨es₁, es₂, ⟨r, m'⟩, rfl, hfirst, hrest⟩ := Follows.of_bind_done h
  cases r with
  | ok out =>
    obtain ⟨rfl, hdone⟩ := hrest.of_done
    cases hdone
    exact ⟨{ w with multiplier := some m', outbox := [.ok out] }, rfl, rfl,
      Or.inr ⟨⟨hr, rfl, rfl⟩, out, rfl⟩, hfirst.bind_done .nil⟩
  | error failure =>
    cases failure with
    | error e =>
      obtain ⟨rfl, hdone⟩ := hrest.of_done
      cases hdone
      exact ⟨{ w with multiplier := some m', running := false, outbox := [.error e] }, rfl, rfl,
        Or.inl ⟨rfl, Or.inr ⟨e, rfl⟩⟩, hfirst.bind_done .nil⟩
    | fault =>
      cases hrest with
      | cons hdoes hs =>
        cases hdoes
        obtain ⟨rfl, hdone⟩ := hs.of_done
        cases hdone
        refine ⟨{ w with multiplier := none, running := false, outbox := [] }, ?_, rfl,
          Or.inl ⟨rfl, Or.inl rfl⟩, hfirst.bind_done (.cons .close .nil)⟩
        simp

theorem outcome_of_work (hw : w.Idle) (h : (work job w).Follows es (.done w')) :
    w'.Outcome (some job) := by
  obtain ⟨v, rfl, -, houtcome, -⟩ := follows_work hw.multiplier hw.running h
  rw [hw.outbox]
  exact houtcome

/-- A worker on its own: from the program `first` on, it has got the results of `log`, and now
it runs a program for the job `task`, or for none. -/
inductive Serves (first : Protocol (Worker τ μ)) :
    List (Job τ × Output τ μ) → Option (Job τ) → Protocol (Worker τ μ) → Prop
  | start : Serves first [] none first
  | act {log task p e q} (h : Serves first log task p) (hdoes : p.Does e q) :
      Serves first log task q
  | take {log w} (job : Job τ) (h : Serves first log none (.done w)) (hr : w.running = true)
      (hout : w.outbox = []) : Serves first log (some job) (work job w)
  | answer {log job w out} (h : Serves first log (some job) (.done w)) (hout : w.outbox = [.ok out]) :
      Serves first (log ++ [(job, out)]) none (.done w.emptied)

/-- What a worker can come to, if it was set up as workers are. -/
theorem Serves.outcome {first p : Protocol (Worker τ μ)} {log : List (Job τ × Output τ μ)}
    {task : Option (Job τ)} (h : Serves first log task p)
    (hfirst : ∀ es w, first.Follows es (.done w) → w.Outcome none) :
    ∀ es w, p.Follows es (.done w) → w.Outcome task := by
  induction h with
  | start => exact hfirst
  | act _ hdoes ih => exact fun es w hfollows => ih _ w (.cons hdoes hfollows)
  | take job _ hr hout ih =>
    intro es w' hfollows
    rcases ih [] _ .nil with hfailed | ⟨hidle, -⟩
    · rw [hfailed.running] at hr
      cases hr
    · exact outcome_of_work (hidle.of_emptied hout) hfollows
  | answer _ hout ih =>
    intro es w' hfollows
    obtain ⟨-, hdone⟩ := hfollows.of_done
    cases hdone
    rcases ih [] _ .nil with hfailed | ⟨hidle, -⟩
    · rcases hfailed.outbox with hnone | ⟨e, he⟩
      · rw [hnone] at hout
        cases hout
      · rw [he] at hout
        cases hout
    · exact Or.inr ⟨hidle, rfl⟩

end Programs

end Worker

/-- The number of jobs, and of results, that a queue has room for. -/
def queueRoom : Nat := 4

/-- A worker in its own thread, and its queues. -/
structure Thread (τ μ : Type) where
  link : LinkEnd
  /-- Jobs it has not taken, the oldest first. -/
  inbox : List (Job τ)
  /-- Whether it has kept its end of the inbox. -/
  listening : Bool
  /-- Results nobody has collected, the oldest first. -/
  outbox : List (Except Error (Output τ μ))
  /-- Whether it has kept its end of the outbox. -/
  speaking : Bool
  /-- What it runs.  The worker that comes out of this has the results that are not delivered. -/
  program : Protocol (Worker τ μ)
  /-- The job that it works on. -/
  task : Option (Job τ)
  /-- The jobs that it has done, with their results. -/
  log : List (Job τ × Output τ μ)

namespace Thread

/-- A thread with a program to begin with. -/
def launch (l : LinkEnd) (first : Protocol (Worker τ μ)) : Thread τ μ :=
  ⟨l, [], true, [], true, first, none, []⟩

/-- What the generator sees of it. -/
def front (t : Thread τ μ) : Worker τ μ :=
  ⟨t.link, none, t.listening, t.outbox⟩

/-- It takes no more jobs and has nothing to deliver. -/
def Stopped (t : Thread τ μ) : Prop :=
  ∃ w, t.program = .done w ∧ w.running = false ∧ w.outbox = []

/-- What a result adds to the record of jobs that are done. -/
def entry (task : Option (Job τ)) : Except Error (Output τ μ) → List (Job τ × Output τ μ)
  | .ok out => task.toList.map (·, out)
  | .error _ => []

variable [ShareRing τ] [ShareRing μ] [Lift τ μ]

/-- A step of a thread. -/
inductive Step : Thread τ μ → Thread τ μ → Prop
  | act {t e p} (h : t.program.Does e p) : Step t { t with program := p }
  | take {t w job jobs} (hdone : t.program = .done w) (hr : w.running = true)
      (hout : w.outbox = []) (hjob : t.inbox = job :: jobs) :
      Step t { t with inbox := jobs, program := w.work job, task := some job }
  | deliver {t w r rs} (hdone : t.program = .done w) (hout : w.outbox = r :: rs)
      (hroom : t.outbox.length < queueRoom) :
      Step t { t with
        outbox := t.outbox ++ [r]
        program := .done { w with outbox := rs }
        task := none
        log := t.log ++ entry t.task r }
  | panic {t} : Step t { t with program := .done ⟨t.link, none, false, []⟩ }
  | dropInbox {t} (h : t.Stopped) : Step t { t with inbox := [], listening := false }
  | dropOutbox {t} (h : t.Stopped) : Step t { t with speaking := false }

/-- The results of a record, as a thread delivers them. -/
def results (log : List (Job τ × Output τ μ)) : List (Except Error (Output τ μ)) :=
  log.map fun a => .ok a.2

/-- The account of a thread that was given some jobs, and from which some results were taken.
One that is at its end may have left an error behind its results. -/
inductive Accounts (first : Protocol (Worker τ μ)) (given : List (Job τ))
    (taken : List (Except Error (Output τ μ))) (t : Thread τ μ) : Prop
  | busy (hserves : Worker.Serves first t.log t.task t.program)
      (hgiven : given = t.log.map Prod.fst ++ t.task.toList ++ t.inbox)
      (hlistening : t.listening = true) (hspeaking : t.speaking = true)
      (htaken : taken ++ t.outbox = results t.log)
  | stopped {task p} (left : Option Error) (hstopped : t.Stopped)
      (hserves : Worker.Serves first t.log task p) (hgiven : t.log.map Prod.fst <+: given)
      (htaken : taken ++ t.outbox = results t.log ++ left.toList.map .error)

variable {t t' : Thread τ μ}

/-- A thread at its end stays there and delivers nothing. -/
theorem Stopped.step (h : t.Stopped) (hstep : t.Step t') : t'.Stopped ∧ t'.outbox = t.outbox := by
  obtain ⟨w, hdone, hr, hout⟩ := h
  cases hstep with
  | act hdoes =>
    rw [hdone] at hdoes
    cases hdoes
  | take hdone' hr' _ _ =>
    cases hdone.symm.trans hdone'
    rw [hr] at hr'
    cases hr'
  | deliver hdone' hout' _ =>
    cases hdone.symm.trans hdone'
    rw [hout] at hout'
    cases hout'
  | panic => exact ⟨⟨_, rfl, rfl, rfl⟩, rfl⟩
  | dropInbox h => exact ⟨h, rfl⟩
  | dropOutbox h => exact ⟨h, rfl⟩

namespace Accounts

variable {first : Protocol (Worker τ μ)} {given : List (Job τ)}
  {taken : List (Except Error (Output τ μ))} {t t' : Thread τ μ} {w : Worker τ μ} {job : Job τ}
  {e : Error}

omit [ShareRing τ] [ShareRing μ] [Lift τ μ] in
theorem not_error_mem_results {log : List (Job τ × Output τ μ)} : .error e ∉ results log := by
  simp [results]

section

variable (h : t.Accounts first given taken)
include h

/-- A thread that comes to its end keeps its account. -/
theorem stop (hstopped : t'.Stopped)
    (hout : t'.outbox = t.outbox) (hlog : t'.log = t.log) : t'.Accounts first given taken := by
  cases h with
  | busy hserves hgiven _ _ htaken =>
    rw [← hlog] at hserves hgiven htaken
    refine .stopped none hstopped hserves ?_ ?_
    · rw [hgiven, append_assoc]
      exact prefix_append _ _
    · rw [hout, htaken]
      exact (append_nil _).symm
  | stopped left _ hserves hgiven htaken =>
    rw [← hlog] at hserves hgiven htaken
    rw [← hout] at htaken
    exact .stopped left hstopped hserves hgiven htaken

section

variable (hfirst : ∀ es w, first.Follows es (.done w) → w.Outcome none)
include hfirst

/-- A thread takes a job. -/
theorem take {jobs : List (Job τ)} (hdone : t.program = .done w) (hr : w.running = true)
    (hout : w.outbox = []) (hjob : t.inbox = job :: jobs) :
    Accounts first given taken { t with inbox := jobs, program := w.work job, task := some job } := by
  cases h with
  | busy hserves hgiven hl hs htaken =>
    rw [hdone] at hserves
    rcases hserves.outcome hfirst [] w .nil with hfailed | ⟨-, hleft⟩
    · rw [hfailed.running] at hr
      cases hr
    · cases htask : t.task with
      | none =>
        rw [htask] at hserves hgiven
        refine .busy (hserves.take job hr hout) ?_ hl hs htaken
        rw [hgiven, hjob]
        simp
      | some job' =>
        rw [htask] at hleft
        obtain ⟨out, hleft⟩ := hleft
        rw [hleft] at hout
        cases hout
  | stopped _ hstopped _ _ _ =>
    obtain ⟨w', hdone', hr', -⟩ := hstopped
    cases hdone.symm.trans hdone'
    rw [hr'] at hr
    cases hr

/-- A thread delivers a result, which belongs to the job that it has worked on, or the error
that is its last. -/
theorem deliver {r : Except Error (Output τ μ)} {rs : List (Except Error (Output τ μ))}
    (hdone : t.program = .done w) (hout : w.outbox = r :: rs) :
    Accounts first given taken { t with
      outbox := t.outbox ++ [r]
      program := .done { w with outbox := rs }
      task := none
      log := t.log ++ entry t.task r } := by
  cases h with
  | busy hserves hgiven hl hs htaken =>
    rw [hdone] at hserves
    rcases hserves.outcome hfirst [] w .nil with hfailed | ⟨-, hleft⟩
    · rcases hfailed.outbox with hnone | ⟨e, he⟩
      · rw [hnone] at hout
        cases hout
      · rw [he] at hout
        cases hout
        rw [entry, append_nil]
        refine .stopped (some e) ⟨_, rfl, hfailed.running, rfl⟩ hserves ?_ ?_
        · rw [hgiven, append_assoc]
          exact prefix_append _ _
        · rw [← append_assoc, htaken]
          rfl
    · cases htask : t.task with
      | none =>
        rw [htask] at hleft
        rw [show w.outbox = [] from hleft] at hout
        cases hout
      | some job =>
        rw [htask] at hserves hgiven hleft
        obtain ⟨out, hleft⟩ := hleft
        rw [hleft] at hout
        cases hout
        refine .busy (hserves.answer hleft) ?_ hl hs ?_
        · rw [hgiven]
          simp [entry]
        · rw [← append_assoc, htaken]
          simp [results, entry]
  | stopped _ hstopped _ _ _ =>
    obtain ⟨w', hdone', -, hout'⟩ := hstopped
    cases hdone.symm.trans hdone'
    rw [hout'] at hout
    cases hout

/-- **A step of a thread keeps its account.** -/
theorem step (hstep : t.Step t') : t'.Accounts first given taken := by
  cases hstep with
  | act hdoes =>
    cases h with
    | busy hserves hgiven hl hs htaken => exact .busy (hserves.act hdoes) hgiven hl hs htaken
    | stopped left hstopped hserves hgiven htaken =>
      obtain ⟨w, hdone, -, -⟩ := hstopped
      rw [hdone] at hdoes
      cases hdoes
  | take hdone hr hout hjob => exact h.take hfirst hdone hr hout hjob
  | deliver hdone hout _ => exact h.deliver hfirst hdone hout
  | panic => exact h.stop ⟨_, rfl, rfl, rfl⟩ rfl rfl
  | dropInbox hstopped => exact h.stop hstopped rfl rfl
  | dropOutbox hstopped => exact h.stop hstopped rfl rfl

end

/-- One more job. -/
theorem hand (job : Job τ) :
    Accounts first (given ++ [job]) taken { t with inbox := t.inbox ++ [job] } := by
  cases h with
  | busy hserves hgiven hl hs htaken =>
    refine .busy hserves ?_ hl hs htaken
    rw [hgiven, append_assoc]
  | stopped left hstopped hserves hgiven htaken =>
    exact .stopped left hstopped hserves (hgiven.trans (prefix_append _ _)) htaken

/-- One result less. -/
theorem collect {r : Except Error (Output τ μ)}
    {rest : List (Except Error (Output τ μ))} (hout : t.outbox = r :: rest) :
    Accounts first given (taken ++ [r]) { t with outbox := rest } := by
  have hsame : taken ++ [r] ++ rest = taken ++ t.outbox := by
    rw [hout, append_assoc, singleton_append]
  cases h with
  | busy hserves hgiven hl hs htaken => exact .busy hserves hgiven hl hs (hsame.trans htaken)
  | stopped left hstopped hserves hgiven htaken =>
    exact .stopped left hstopped hserves hgiven (hsame.trans htaken)

/-- A result is taken away, if there is one. -/
theorem lose : ∃ taken', Accounts first given taken' { t with outbox := t.outbox.tail } := by
  cases hout : t.outbox with
  | nil =>
    refine ⟨taken, ?_⟩
    obtain ⟨link, inbox, listening, outbox, speaking, program, task, log⟩ := t
    cases hout
    exact h
  | cons r rest => exact ⟨taken ++ [r], h.collect hout⟩

/-- Only a thread at its end gives up a queue. -/
theorem stopped_of_dropped (hdropped : t.listening = false ∨ t.speaking = false) : t.Stopped := by
  cases h with
  | busy _ _ hl hs _ =>
    rw [hl, hs] at hdropped
    simp at hdropped
  | stopped _ hstopped _ _ _ => exact hstopped

/-- What has come out of a thread so far. -/
theorem record : (∃ task p, Worker.Serves first t.log task p) ∧ t.log.map Prod.fst <+: given ∧
      ∃ left : Option Error, taken ++ t.outbox = results t.log ++ left.toList.map .error := by
  cases h with
  | busy hserves hgiven _ _ htaken =>
    refine ⟨⟨_, _, hserves⟩, ?_, none, ?_⟩
    · rw [hgiven, append_assoc]
      exact prefix_append _ _
    · rw [htaken]
      exact (append_nil _).symm
  | @stopped task p left _ hserves hgiven htaken => exact ⟨⟨task, p, hserves⟩, hgiven, left, htaken⟩

/-- A thread has at most one result for each job, and an error. -/
theorem length_le : taken.length + t.outbox.length ≤ given.length + 1 := by
  obtain ⟨-, hgiven, left, htaken⟩ := h.record
  have hjobs := hgiven.length_le
  have hlength := congrArg length htaken
  have hleft : left.toList.length ≤ 1 := by cases left <;> simp
  simp only [length_append, length_map, results] at hjobs hlength
  omega

/-- An error is the last that comes out of a thread. -/
theorem stopped_of_error {rest : List (Except Error (Output τ μ))} (hout : t.outbox = .error e :: rest) :
    t.Stopped ∧ rest = [] := by
  have herror : .error e ∈ taken ++ t.outbox := by simp [hout]
  cases h with
  | busy _ _ _ _ htaken =>
    rw [htaken] at herror
    exact absurd herror not_error_mem_results
  | @stopped _ _ left hstopped _ _ htaken =>
    refine ⟨hstopped, ?_⟩
    cases left with
    | none =>
      rw [htaken, Option.toList_none, map_nil, append_nil] at herror
      exact absurd herror not_error_mem_results
    | some e' =>
      rcases eq_nil_or_concat rest with hnil | ⟨front, r, rfl⟩
      · exact hnil
      · -- the last one is the error of the account, so this one is not
        rw [hout, concat_eq_append, ← cons_append, ← append_assoc] at htaken
        obtain ⟨hfront, -⟩ := append_inj' htaken rfl
        have hmem : .error e ∈ taken ++ .error e :: front := by simp
        rw [hfront] at hmem
        exact absurd hmem not_error_mem_results

end

/-- **A result belongs to the job of the same number.** -/
theorem served {out : Output τ μ} (h : t.Accounts first (given ++ [job]) (taken ++ [.ok out]))
    (hlength : taken.length = given.length) : t.log[given.length]? = some (job, out) := by
  obtain ⟨-, ⟨rest, hgiven⟩, left, htaken⟩ := h.record
  have hget : (results t.log ++ left.toList.map .error)[given.length]? = some (.ok out) := by
    rw [← htaken, ← hlength]
    simp
  have hlog : given.length < t.log.length := by
    by_contra hle
    rw [getElem?_append_right (by simpa [results] using hle)] at hget
    obtain ⟨e, -, he⟩ := mem_map.mp (mem_of_getElem? hget)
    cases he
  have hjob : (t.log.map Prod.fst ++ rest)[given.length]? = some job := by
    rw [hgiven]
    simp
  rw [getElem?_append_left (by simpa using hlog)] at hjob
  rw [getElem?_append_left (by simpa [results] using hlog)] at hget
  rw [getElem?_eq_getElem hlog]
  simp only [results, getElem?_map, getElem?_eq_getElem hlog, Option.map_some,
    Option.some.injEq, Except.ok.injEq] at hjob hget
  rw [← hjob, ← hget]

end Accounts

/-- The record of a thread only grows. -/
theorem Step.log_prefix (h : t.Step t') : t.log <+: t'.log := by
  cases h with
  | deliver _ _ _ => exact prefix_append _ _
  | act _ | take _ _ _ _ | panic | dropInbox _ | dropOutbox _ => exact prefix_rfl

end Thread

end Beaver
