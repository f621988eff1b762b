import Mathlib.Data.List.Forall2
import Mathlib.Logic.Relation
import Beaver.Proofs.Generator.Threads

/-!
# A pool of worker threads

A generator hands a job to one thread after the other and then collects a result from each,
while the threads make steps of their own in any order.  A call stops at the first thread that
takes no job, and at the first error; results that were not collected stay behind, and so may
jobs that were handed out.

As long as no call has failed, every thread is as many jobs ahead as the stage of the call says
(`Pool.Sound`).  Once a call has failed, there is a thread at its end with nothing in its
outbox, and no later call gets past it (`Pool.Broken`).  So the results of a call are those of
its own job, and no call succeeds after one that has failed (`Pool.Reaches.consistent`).
-/

namespace Beaver

open List
open Multiplier (Job Output)

variable {τ μ : Type}

/-- How far a call has come. -/
inductive Stage (τ μ : Type) where
  /-- There is none. -/
  | ready
  /-- The threads before `next` have been given the job. -/
  | handing (job : Job τ) (next : Nat)
  /-- The first threads have given these results. -/
  | collecting (job : Job τ) (outs : List (Output τ μ))

namespace Stage

/-- What the call has given to a thread. -/
def given : Stage τ μ → Nat → List (Job τ)
  | ready, _ => []
  | handing job next, k => if k < next then [job] else []
  | collecting job _, _ => [job]

/-- What the call has taken from a thread. -/
def taken : Stage τ μ → Nat → List (Except Error (Output τ μ))
  | collecting _ outs, k => (outs[k]?).toList.map .ok
  | _, _ => []

end Stage

/-- A generator with its threads. -/
structure Pool (τ μ : Type) where
  threads : List (Thread τ μ)
  stage : Stage τ μ
  /-- The calls that have returned, and what they have returned. -/
  answers : List (Job τ × Except Error (List (Output τ μ)))

namespace Pool

/-- One thread for each peer of a party. -/
def launch (p : Player) (first : Nat → Protocol (Worker τ μ)) : Pool τ μ :=
  ⟨p.peers.map fun peer => .launch (p.link peer) (first peer), .ready, []⟩

variable {ts : List (Thread τ μ)} {k : Nat} {α : Type} {R : α → Thread τ μ → Prop} {as : List α}
  {p : Player} {first : Nat → Protocol (Worker τ μ)} {t t' : Thread τ μ}

theorem getElem?_set_eq_some {j : Nat} (h : (ts.set k t)[j]? = some t') :
    k = j ∧ t' = t ∨ k ≠ j ∧ ts[j]? = some t' := by
  grind

theorem forall₂_set (h : Forall₂ R as ts) (ht : ts[k]? = some t)
    (hkeeps : ∀ a, R a t → R a t') : Forall₂ R as (ts.set k t') := by
  induction h generalizing k with
  | nil => exact .nil
  | cons hfirst hrest ih =>
    cases k with
    | zero =>
      cases ht
      exact .cons (hkeeps _ hfirst) hrest
    | succ k => exact .cons hfirst (ih ht)

theorem launch_threads {peer : Nat} (ht : (launch p first).threads[k]? = some t)
    (hpeer : p.peers[k]? = some peer) : t = .launch (p.link peer) (first peer) := by
  rw [launch, getElem?_map, hpeer] at ht
  exact (Option.some.inj ht).symm

variable [ShareRing τ] [ShareRing μ] [Lift τ μ]

/-- A step of a thread or of the generator. -/
inductive Step : Pool τ μ → Pool τ μ → Prop
  | thread {s k t t'} (ht : s.threads[k]? = some t) (h : t.Step t') :
      Step s { s with threads := s.threads.set k t' }
  | call {s} (job : Job τ) (h : s.stage = .ready) : Step s { s with stage := .handing job 0 }
  | hand {s job k t} (h : s.stage = .handing job k) (ht : s.threads[k]? = some t)
      (hopen : t.listening = true) (hroom : t.inbox.length < queueRoom) :
      Step s { s with
        threads := s.threads.set k { t with inbox := t.inbox ++ [job] }
        stage := .handing job (k + 1) }
  | refuse {s job k t} (h : s.stage = .handing job k) (ht : s.threads[k]? = some t)
      (hclosed : t.listening = false) :
      Step s ⟨s.threads.set k { t with outbox := t.front.failure.2.outbox }, .ready,
        s.answers ++ [(job, .error t.front.failure.1)]⟩
  | handed {s job} (h : s.stage = .handing job s.threads.length) :
      Step s { s with stage := .collecting job [] }
  | collect {s job outs t out} (h : s.stage = .collecting job outs)
      (ht : s.threads[outs.length]? = some t) (hready : t.outbox ≠ [] ∨ t.speaking = false)
      (hok : t.front.collect.1 = .ok out) :
      Step s { s with
        threads := s.threads.set outs.length { t with outbox := t.front.collect.2.outbox }
        stage := .collecting job (outs ++ [out]) }
  | collectError {s job outs t e} (h : s.stage = .collecting job outs)
      (ht : s.threads[outs.length]? = some t) (hready : t.outbox ≠ [] ∨ t.speaking = false)
      (herror : t.front.collect.1 = .error e) :
      Step s ⟨s.threads.set outs.length { t with outbox := t.front.collect.2.outbox }, .ready,
        s.answers ++ [(job, .error e)]⟩
  | finish {s job outs} (h : s.stage = .collecting job outs)
      (hall : outs.length = s.threads.length) :
      Step s ⟨s.threads, .ready, s.answers ++ [(job, .ok outs)]⟩

/-- Any number of steps in any order. -/
def Reaches : Pool τ μ → Pool τ μ → Prop :=
  Relation.ReflTransGen Step

/-- These are the results that the threads have for the job of number `c`. -/
def Current (ts : List (Thread τ μ)) (c : Nat) (job : Job τ) (outs : List (Output τ μ)) : Prop :=
  Forall₂ (fun out t => t.log[c]? = some (job, out)) outs ts

/-- No call has failed, and the account of every thread is as the stage says. -/
structure Sound (peers : List Nat) (first : Nat → Protocol (Worker τ μ)) (s : Pool τ μ) : Prop where
  length : s.threads.length = peers.length
  answered : ∀ a ∈ s.answers, ∃ outs, a.2 = .ok outs
  accounts : ∀ (k : Nat) (t : Thread τ μ) (peer : Nat), s.threads[k]? = some t →
    peers[k]? = some peer → ∃ taken : List (Except Error (Output τ μ)),
      taken.length = s.answers.length ∧
      t.Accounts (first peer) (s.answers.map Prod.fst ++ s.stage.given k) (taken ++ s.stage.taken k)

/-- Some thread is at its end with nothing in its outbox, and the call has not got past it. -/
def Broken (s : Pool τ μ) : Prop :=
  ∃ k t, s.threads[k]? = some t ∧ t.Stopped ∧ t.outbox = [] ∧
    ∀ job outs, s.stage = .collecting job outs → outs.length ≤ k

variable {peers : List Nat} {s s' : Pool τ μ}

namespace Sound

variable (h : s.Sound peers first) {t t' : Thread τ μ} {stage : Stage τ μ} {job : Job τ}
  {outs : List (Output τ μ)}
include h

/-- One thread and the stage have changed, and the account of the thread with them. -/
theorem set (ht : s.threads[k]? = some t)
    (hone : ∀ peer given taken,
      t.Accounts (first peer) (given ++ s.stage.given k) (taken ++ s.stage.taken k) →
      t'.Accounts (first peer) (given ++ stage.given k) (taken ++ stage.taken k))
    (hothers : ∀ j, k ≠ j → stage.given j = s.stage.given j ∧ stage.taken j = s.stage.taken j) :
    Sound peers first { s with threads := s.threads.set k t', stage } := by
  refine ⟨length_set.trans h.length, h.answered, ?_⟩
  intro j u peer hu hpeer
  rcases getElem?_set_eq_some hu with ⟨rfl, rfl⟩ | ⟨hkj, hu⟩
  · obtain ⟨taken, hlength, haccounts⟩ := h.accounts k t peer ht hpeer
    exact ⟨taken, hlength, hone _ _ _ haccounts⟩
  · obtain ⟨hgiven, htaken⟩ := hothers j hkj
    rw [hgiven, htaken]
    exact h.accounts j u peer hu hpeer

/-- Only the stage has changed. -/
theorem restage (hsame : ∀ k < s.threads.length, stage.given k = s.stage.given k ∧ stage.taken k = s.stage.taken k) :
    Sound peers first { s with stage } := by
  refine ⟨h.length, h.answered, ?_⟩
  intro k t peer ht hpeer
  obtain ⟨hgiven, htaken⟩ := hsame k (List.getElem?_eq_some_iff.mp ht).1
  rw [hgiven, htaken]
  exact h.accounts k t peer ht hpeer

/-- The peer of a thread. -/
theorem exists_peer (ht : s.threads[k]? = some t) : ∃ peer, peers[k]? = some peer := by
  have hlt := (List.getElem?_eq_some_iff.mp ht).1
  rw [h.length] at hlt
  exact ⟨_, List.getElem?_eq_getElem hlt⟩

/-- The account of a thread that the call has not got to. -/
theorem account (ht : s.threads[k]? = some t) (hnone : s.stage.taken k = []) :
    ∃ (peer : Nat) (taken : List (Except Error (Output τ μ))), taken.length = s.answers.length ∧
      t.Accounts (first peer) (s.answers.map Prod.fst ++ s.stage.given k) taken := by
  obtain ⟨peer, hpeer⟩ := h.exists_peer ht
  obtain ⟨taken, hlength, haccounts⟩ := h.accounts k t peer ht hpeer
  rw [hnone, append_nil] at haccounts
  exact ⟨peer, taken, hlength, haccounts⟩

theorem hand (hstage : s.stage = .handing job k) (ht : s.threads[k]? = some t) :
    Sound peers first { s with
      threads := s.threads.set k { t with inbox := t.inbox ++ [job] }
      stage := .handing job (k + 1) } := by
  refine h.set ht ?_ ?_
  · intro peer given taken haccounts
    have hhand := haccounts.hand job
    rw [hstage] at hhand
    simpa [Stage.given, Stage.taken] using hhand
  · intro j hkj
    rw [hstage]
    refine ⟨?_, rfl⟩
    have hsame : (j < k + 1) = (j < k) := by
      apply propext
      omega
    simp only [Stage.given, hsame]

/-- A thread that takes no job has ended before the call, so it leaves at most the error that
it has ended with. -/
theorem refuse {answers} (hstage : s.stage = .handing job k)
    (ht : s.threads[k]? = some t) (hclosed : t.listening = false) :
    Broken ⟨s.threads.set k { t with outbox := t.front.failure.2.outbox }, .ready, answers⟩ := by
  obtain ⟨peer, taken, hlength, haccounts⟩ := h.account ht (by rw [hstage]; rfl)
  have hstopped := haccounts.stopped_of_dropped (Or.inl hclosed)
  have hle := haccounts.length_le
  have hempty : t.outbox.tail = [] := by
    apply eq_nil_of_length_eq_zero
    rw [length_tail]
    simp only [hstage, Stage.given, length_append, length_map, lt_irrefl, if_false,
      length_nil] at hle
    omega
  refine ⟨k, _, List.getElem?_set_self (List.getElem?_eq_some_iff.mp ht).1, hstopped, hempty, ?_⟩
  intro job outs hcollecting
  cases hcollecting

theorem collect {out : Output τ μ} (hstage : s.stage = .collecting job outs)
    (ht : s.threads[outs.length]? = some t) (hok : t.front.collect.1 = .ok out) :
    Sound peers first { s with
      threads := s.threads.set outs.length { t with outbox := t.front.collect.2.outbox }
      stage := .collecting job (outs ++ [out]) } := by
  obtain ⟨rest, hrest⟩ : ∃ rest, t.outbox = .ok out :: rest := by
    cases hout : t.outbox with
    | nil => simp [Thread.front, Worker.collect, hout] at hok
    | cons r rest =>
      simp only [Thread.front, Worker.collect, hout, head?_cons, Option.getD_some] at hok
      exact ⟨rest, by rw [hok]⟩
  refine h.set ht ?_ ?_
  · intro peer given taken haccounts
    have hcollect := haccounts.collect hrest
    rw [hstage] at hcollect
    simpa [Stage.given, Stage.taken, Thread.front, Worker.collect, hrest] using hcollect
  · intro j hne
    rw [hstage]
    refine ⟨rfl, ?_⟩
    simp only [Stage.taken, getElem?_append]
    grind

/-- A thread that gives an error, or is gone with nothing left, is at its end. -/
theorem collectError {e : Error} {answers}
    (hstage : s.stage = .collecting job outs) (ht : s.threads[outs.length]? = some t)
    (hready : t.outbox ≠ [] ∨ t.speaking = false) (herror : t.front.collect.1 = .error e) :
    Broken ⟨s.threads.set outs.length { t with outbox := t.front.collect.2.outbox }, .ready,
      answers⟩ := by
  obtain ⟨peer, taken, hlength, haccounts⟩ := h.account ht (by simp [hstage, Stage.taken])
  have hend : t.Stopped ∧ t.outbox.tail = [] := by
    cases hout : t.outbox with
    | nil =>
      rcases hready with hsome | hdropped
      · exact absurd hout hsome
      · exact ⟨haccounts.stopped_of_dropped (Or.inr hdropped), rfl⟩
    | cons r rest =>
      simp only [Thread.front, Worker.collect, hout, head?_cons, Option.getD_some] at herror
      rw [herror] at hout
      exact haccounts.stopped_of_error hout
  refine ⟨outs.length, _, List.getElem?_set_self (List.getElem?_eq_some_iff.mp ht).1, hend.1,
    hend.2, ?_⟩
  intro job outs hcollecting
  cases hcollecting

/-- **A call that succeeds returns the results of its own job.** -/
theorem current (hstage : s.stage = .collecting job outs)
    (hall : outs.length = s.threads.length) : Current s.threads s.answers.length job outs := by
  refine forall₂_iff_get.mpr ⟨hall, ?_⟩
  intro k hout hthread
  have ht := getElem?_eq_getElem hthread
  obtain ⟨peer, hpeer⟩ := h.exists_peer ht
  obtain ⟨taken, hlength, haccounts⟩ := h.accounts k _ peer ht hpeer
  simp only [hstage, Stage.given, Stage.taken, getElem?_eq_getElem hout, Option.toList_some,
    map_singleton] at haccounts
  have hserved := haccounts.served (by rw [hlength, length_map])
  rwa [length_map] at hserved

theorem finish (hstage : s.stage = .collecting job outs)
    (hall : outs.length = s.threads.length) :
    Sound peers first ⟨s.threads, .ready, s.answers ++ [(job, .ok outs)]⟩ := by
  refine ⟨h.length, ?_, ?_⟩
  · intro a ha
    rcases mem_append.mp ha with ha | ha
    · exact h.answered a ha
    · rw [mem_singleton.mp ha]
      exact ⟨outs, rfl⟩
  · intro k t peer ht hpeer
    have hout : k < outs.length := by
      rw [hall]
      exact (List.getElem?_eq_some_iff.mp ht).1
    obtain ⟨taken, hlength, haccounts⟩ := h.accounts k t peer ht hpeer
    simp only [hstage, Stage.given, Stage.taken, getElem?_eq_getElem hout, Option.toList_some,
      map_singleton] at haccounts
    refine ⟨taken ++ [.ok outs[k]], ?_, ?_⟩
    · simp [hlength]
    · simpa [Stage.given, Stage.taken] using haccounts

/-- What one step makes of a pool in which no call has failed. -/
theorem step (hfirst : ∀ peer es w, (first peer).Follows es (.done w) → w.Outcome none)
    (hstep : s.Step s') : s'.Sound peers first ∧ (s'.answers = s.answers ∨ ∃ job outs,
        s'.answers = s.answers ++ [(job, .ok outs)] ∧
        Current s'.threads s.answers.length job outs) ∨
      s'.Broken ∧ ∃ job e, s'.answers = s.answers ++ [(job, .error e)] := by
  cases hstep with
  | thread ht hthread =>
    refine Or.inl ⟨h.set ht ?_ fun _ _ => ⟨rfl, rfl⟩, Or.inl rfl⟩
    exact fun peer _ _ haccounts => haccounts.step (hfirst peer) hthread
  | call job hstage =>
    refine Or.inl ⟨h.restage fun k _ => ?_, Or.inl rfl⟩
    simp [hstage, Stage.given, Stage.taken]
  | hand hstage ht _ _ => exact Or.inl ⟨h.hand hstage ht, Or.inl rfl⟩
  | refuse hstage ht hclosed => exact Or.inr ⟨h.refuse hstage ht hclosed, _, _, rfl⟩
  | handed hstage =>
    refine Or.inl ⟨h.restage fun k hk => ?_, Or.inl rfl⟩
    simp [hstage, Stage.given, Stage.taken, hk]
  | collect hstage ht _ hok => exact Or.inl ⟨h.collect hstage ht hok, Or.inl rfl⟩
  | collectError hstage ht hready herror =>
    exact Or.inr ⟨h.collectError hstage ht hready herror, _, _, rfl⟩
  | finish hstage hall =>
    exact Or.inl ⟨h.finish hstage hall, Or.inr ⟨_, _, rfl, h.current hstage hall⟩⟩

end Sound

namespace Broken

omit [ShareRing τ] [ShareRing μ] [Lift τ μ] in
/-- One thread and the stage have changed, and a thread at its end is still there. -/
theorem set {k j : Nat} {t u u' : Thread τ μ} {stage : Stage τ μ} {answers}
    (ht : s.threads[k]? = some t) (hstopped : t.Stopped) (hempty : t.outbox = [])
    (hu : s.threads[j]? = some u)
    (hkeeps : u.Stopped → u.outbox = [] → u'.Stopped ∧ u'.outbox = [])
    (hstage : ∀ job outs, stage = .collecting job outs → outs.length ≤ k) :
    Broken ⟨s.threads.set j u', stage, answers⟩ := by
  by_cases hjk : j = k
  · subst hjk
    cases hu.symm.trans ht
    obtain ⟨hstopped', hempty'⟩ := hkeeps hstopped hempty
    exact ⟨j, u', List.getElem?_set_self (List.getElem?_eq_some_iff.mp ht).1, hstopped', hempty', hstage⟩
  · refine ⟨k, t, ?_, hstopped, hempty, hstage⟩
    rw [← ht]
    exact getElem?_set_ne hjk

/-- **No call gets past a thread that has ended.** -/
theorem step (h : s.Broken) (hstep : s.Step s') :
    s'.Broken ∧ (s'.answers = s.answers ∨ ∃ job e, s'.answers = s.answers ++ [(job, .error e)]) := by
  obtain ⟨k, t, ht, hstopped, hempty, hstage⟩ := h
  cases hstep with
  | thread hu hthread =>
    refine ⟨set ht hstopped hempty hu ?_ hstage, Or.inl rfl⟩
    intro hu hnone
    obtain ⟨hstopped', hsame⟩ := hu.step hthread
    exact ⟨hstopped', hsame.trans hnone⟩
  | call job _ => exact ⟨⟨k, t, ht, hstopped, hempty, fun _ _ h => by cases h⟩, Or.inl rfl⟩
  | hand _ hu _ _ =>
    refine ⟨set ht hstopped hempty hu ?_ fun _ _ h => (by cases h), Or.inl rfl⟩
    exact fun hu hnone => ⟨hu, hnone⟩
  | refuse _ hu _ =>
    refine ⟨set ht hstopped hempty hu ?_ fun _ _ h => (by cases h), Or.inr ⟨_, _, rfl⟩⟩
    exact fun hu hnone => ⟨hu, by simp [Thread.front, Worker.failure, hnone]⟩
  | handed _ =>
    refine ⟨⟨k, t, ht, hstopped, hempty, ?_⟩, Or.inl rfl⟩
    intro job outs h
    cases h
    exact Nat.zero_le k
  | @collect job outs u out hcollecting hu _ hok =>
    have hle := hstage _ _ hcollecting
    have hne : outs.length ≠ k := by
      -- the thread at its end has no result to give
      rintro rfl
      cases hu.symm.trans ht
      simp [Thread.front, Worker.collect, hempty] at hok
    refine ⟨⟨k, t, (getElem?_set_ne hne).trans ht, hstopped, hempty, ?_⟩, Or.inl rfl⟩
    intro job' outs' h
    cases h
    rw [length_append, length_singleton]
    omega
  | collectError _ hu _ _ =>
    refine ⟨set ht hstopped hempty hu ?_ fun _ _ h => (by cases h), Or.inr ⟨_, _, rfl⟩⟩
    exact fun hu hnone => ⟨hu, by simp [Thread.front, Worker.collect, hnone]⟩
  | finish hcollecting hall =>
    have hle := hstage _ _ hcollecting
    have hlt := (List.getElem?_eq_some_iff.mp ht).1
    omega

end Broken

/-- What a step does to the threads: at most one of them changes, by a step of its own, by a job
or by the loss of a result. -/
theorem Step.threads (h : s.Step s') : s'.threads = s.threads ∨ ∃ (k : Nat) (t t' : Thread τ μ),
    s.threads[k]? = some t ∧ s'.threads = s.threads.set k t' ∧
      (t.Step t' ∨ (∃ job, t' = { t with inbox := t.inbox ++ [job] }) ∨
        t' = { t with outbox := t.outbox.tail }) := by
  cases h with
  | thread ht hstep => exact Or.inr ⟨_, _, _, ht, rfl, Or.inl hstep⟩
  | hand _ ht _ _ => exact Or.inr ⟨_, _, _, ht, rfl, Or.inr (Or.inl ⟨_, rfl⟩)⟩
  | refuse _ ht _ => exact Or.inr ⟨_, _, _, ht, rfl, Or.inr (Or.inr rfl)⟩
  | collect _ ht _ _ => exact Or.inr ⟨_, _, _, ht, rfl, Or.inr (Or.inr rfl)⟩
  | collectError _ ht _ _ => exact Or.inr ⟨_, _, _, ht, rfl, Or.inr (Or.inr rfl)⟩
  | call _ _ | handed _ | finish _ _ => exact Or.inl rfl

/-- **What every thread keeps, the pool keeps.** -/
theorem Step.forall₂ (h : s.Step s') (hall : Forall₂ R as s.threads)
    (hstep : ∀ a t t', t.Step t' → R a t → R a t')
    (hgive : ∀ a t job, R a t → R a { t with inbox := t.inbox ++ [job] })
    (hlose : ∀ a t, R a t → R a { t with outbox := t.outbox.tail }) :
    Forall₂ R as s'.threads := by
  rcases h.threads with hsame | ⟨k, t, t', ht, hset, hchange⟩
  · rw [hsame]
    exact hall
  · rw [hset]
    refine forall₂_set hall ht fun a ha => ?_
    rcases hchange with hthread | ⟨job, rfl⟩ | rfl
    · exact hstep a t t' hthread ha
    · exact hgive a t job ha
    · exact hlose a t ha

/-- What holds in every run: threads do no more than their workers' programs, each call that has
succeeded has the results of its own job, and none has succeeded after one that has failed. -/
structure Consistent (peers : List Nat) (first : Nat → Protocol (Worker τ μ)) (s : Pool τ μ) :
    Prop where
  accounts : Forall₂ (fun peer t => ∃ given taken, t.Accounts (first peer) given taken) peers
    s.threads
  current : ∀ (c : Nat) job outs, s.answers[c]? = some (job, .ok outs) → Current s.threads c job outs
  lasting : s.answers.Pairwise fun a b => (∃ e, a.2 = .error e) → ∃ e, b.2 = .error e

namespace Consistent

/-- The threads go on. -/
theorem go (h : s.Consistent peers first)
    (hfirst : ∀ peer es w, (first peer).Follows es (.done w) → w.Outcome none) (hstep : s.Step s') :
    Consistent peers first { s' with answers := s.answers } := by
  refine ⟨hstep.forall₂ h.accounts ?_ ?_ ?_, ?_, h.lasting⟩
  · rintro peer t t' hthread ⟨given, taken, ht⟩
    exact ⟨given, taken, ht.step (hfirst peer) hthread⟩
  · rintro peer t job ⟨given, taken, ht⟩
    exact ⟨given ++ [job], taken, ht.hand job⟩
  · rintro peer t ⟨given, taken, ht⟩
    exact ⟨given, ht.lose⟩
  · intro c job outs hget
    refine hstep.forall₂ (h.current c job outs hget) ?_ (fun _ _ _ hlog => hlog) fun _ _ hlog => hlog
    intro out t t' hthread hlog
    obtain ⟨rest, hrest⟩ := hthread.log_prefix
    rw [← hrest, List.getElem?_append_left (List.getElem?_eq_some_iff.mp hlog).1]
    exact hlog

/-- One more call has returned. -/
theorem append (h : s.Consistent peers first) {job : Job τ}
    {answer : Except Error (List (Output τ μ))}
    (hcurrent : ∀ outs, answer = .ok outs → Current s.threads s.answers.length job outs)
    (hlasting : ∀ a ∈ s.answers, (∃ e, a.2 = .error e) → ∃ e, answer = .error e) :
    Consistent peers first { s with answers := s.answers ++ [(job, answer)] } := by
  refine ⟨h.accounts, ?_, ?_⟩
  · intro c job' outs hget
    rcases Nat.lt_or_ge c s.answers.length with hlt | hge
    · rw [List.getElem?_append_left hlt] at hget
      exact h.current c job' outs hget
    · obtain rfl : c = s.answers.length := by
        have hlt := (List.getElem?_eq_some_iff.mp hget).1
        rw [List.length_append, List.length_singleton] at hlt
        omega
      rw [List.getElem?_concat_length] at hget
      cases hget
      exact hcurrent outs rfl
  · refine List.pairwise_append.mpr ⟨h.lasting, List.pairwise_singleton _ _, ?_⟩
    intro a ha b hb
    rw [mem_singleton.mp hb]
    exact hlasting a ha

theorem append_error (h : s.Consistent peers first) (job : Job τ) (e : Error) :
    Consistent peers first { s with answers := s.answers ++ [(job, .error e)] } :=
  h.append (fun _ hok => by cases hok) fun _ _ _ => ⟨e, rfl⟩

end Consistent

/-- Nothing was given to a thread that is only launched. -/
theorem accounts_launch (l : LinkEnd) (first : Protocol (Worker τ μ)) :
    (Thread.launch l first).Accounts first [] [] :=
  .busy .start rfl rfl rfl rfl

theorem sound_launch (p : Player) (first : Nat → Protocol (Worker τ μ)) :
    (launch p first).Sound p.peers first := by
  refine ⟨length_map _, fun a ha => (by cases ha), ?_⟩
  intro k t peer ht hpeer
  rw [launch_threads ht hpeer]
  exact ⟨[], rfl, accounts_launch _ _⟩

theorem consistent_launch (p : Player) (first : Nat → Protocol (Worker τ μ)) :
    (launch p first).Consistent p.peers first := by
  refine ⟨?_, fun _ _ _ hget => (by cases hget), .nil⟩
  refine forall₂_map_right_iff.mpr (forall₂_same.mpr fun peer _ => ?_)
  exact ⟨[], [], accounts_launch _ _⟩

/-- **In any run of calls, every call that succeeds has the results of its own job, and none
succeeds after one that has failed.** -/
theorem Reaches.consistent
    (hfirst : ∀ peer es w, (first peer).Follows es (.done w) → w.Outcome none)
    (h : (launch p first).Reaches s) : s.Consistent p.peers first := by
  suffices hboth : s.Consistent p.peers first ∧ (s.Sound p.peers first ∨ s.Broken) from hboth.1
  induction h with
  | refl => exact ⟨consistent_launch p first, Or.inl (sound_launch p first)⟩
  | @tail s s' _ hstep ih =>
    obtain ⟨hconsistent, hsound | hbroken⟩ := ih
    all_goals
      have hgo := hconsistent.go hfirst hstep
      obtain ⟨threads, stage, answers⟩ := s'
    · rcases hsound.step hfirst hstep with
        ⟨hsound', rfl | ⟨job, outs, rfl, hcurrent⟩⟩ | ⟨hbroken, job, e, rfl⟩
      · exact ⟨hgo, Or.inl hsound'⟩
      · refine ⟨hgo.append ?_ ?_, Or.inl hsound'⟩
        · intro outs' hok
          cases hok
          exact hcurrent
        · -- so far no call has failed
          intro a ha ⟨e, he⟩
          obtain ⟨outs', hok⟩ := hsound.answered a ha
          rw [hok] at he
          cases he
      · exact ⟨hgo.append_error job e, Or.inr hbroken⟩
    · obtain ⟨hbroken', rfl | ⟨job, e, rfl⟩⟩ := hbroken.step hstep
      · exact ⟨hgo, Or.inr hbroken'⟩
      · exact ⟨hgo.append_error job e, Or.inr hbroken'⟩

end Pool

end Beaver
