import Beaver.Proofs.Generator.Pool

/-!
# Threads at rest

When all threads of a pool have come to rest between two calls, what is left of a thread is its
worker.  A call of a generator is then what `Workers.run` does with these workers, and this is
one of the ways in which the threads may go (`Pool.Resting.run`); the setup of a generator leads
to threads at rest (`Pool.reaches_ofSeeds`).
-/

namespace Beaver

open List
open Multiplier (Job Output)
open Protocol (Follows)

variable {τ μ : Type}

namespace Worker

/-- A worker that takes jobs is set up to work on them. -/
def Equipped (w : Worker τ μ) : Prop :=
  w.running = true → w.multiplier.isSome = true

variable {task : Option (Job τ)} {w : Worker τ μ} {ws ws' : List (Worker τ μ)}

theorem Outcome.length_le (h : w.Outcome task) : w.outbox.length ≤ 1 := by
  unfold Outcome at h
  grind [Failed]

theorem Outcome.equipped (h : w.Outcome task) : w.Equipped := by
  intro hr
  rcases h with hfailed | ⟨hidle, -⟩
  · rw [hfailed.running] at hr
    cases hr
  · exact hidle.multiplier

theorem running_of_refusal_eq_none (h : refusal ws = none) : ∀ w ∈ ws, w.running = true := by
  induction ws with
  | nil => exact fun w hw => by cases hw
  | cons v ws ih =>
    rw [refusal] at h
    split at h
    · next hv =>
        intro w hw
        rcases mem_cons.mp hw with rfl | hw
        · exact hv
        · exact ih (Option.map_eq_none_iff.mp h) w hw
    · cases h

theorem exists_of_refusal_eq_some {e : Error} (h : refusal ws = some (e, ws')) :
    ∃ front w back, ws = front ++ w :: back ∧ (∀ v ∈ front, v.running = true) ∧
      w.running = false ∧ e = w.failure.1 ∧ ws' = front ++ w.failure.2 :: back := by
  induction ws generalizing ws' with
  | nil => cases h
  | cons v ws ih =>
    rw [refusal] at h
    split at h
    · next hv =>
        obtain ⟨⟨e', rest⟩, hrest, heq⟩ := Option.map_eq_some_iff.mp h
        cases heq
        obtain ⟨front, w, back, rfl, hfront, hw, he, rfl⟩ := ih hrest
        refine ⟨v :: front, w, back, rfl, ?_, hw, he, rfl⟩
        exact forall_mem_cons.mpr ⟨hv, hfront⟩
    · next hv =>
        cases h
        exact ⟨[], v, ws, rfl, fun w hw => (by cases hw), Bool.eq_false_of_not_eq_true hv, rfl, rfl⟩

/-- Collecting changes no more than the outboxes. -/
theorem map_emptied_collectAll (ws : List (Worker τ μ)) :
    (collectAll ws).2.map emptied = ws.map emptied := by
  induction ws with
  | nil => rfl
  | cons w ws ih =>
    rw [collectAll]
    split
    · next e w' hcollect =>
        obtain rfl : w.collect.2 = w' := congrArg Prod.snd hcollect
        rfl
    · next out w' hcollect =>
        obtain rfl : w.collect.2 = w' := congrArg Prod.snd hcollect
        exact congrArg (w.emptied :: ·) ih

/-- The outbox does not matter for what a worker can do. -/
theorem equipped_of_map_emptied (hsame : ws'.map emptied = ws.map emptied)
    (h : ∀ w ∈ ws, w.Equipped) : ∀ w ∈ ws', w.Equipped := by
  intro w' hw'
  have hmem : w'.emptied ∈ ws.map emptied := hsame ▸ mem_map_of_mem hw'
  obtain ⟨w, hw, heq⟩ := mem_map.mp hmem
  have hw : w.emptied.Equipped := h w hw
  rw [heq] at hw
  exact hw

section Work

variable [ShareRing τ] [ShareRing μ] [Lift τ μ] {job : Job τ} {es : List Event} {w w' : Worker τ μ}

/-- What a call makes of the workers up to the first that is not running. -/
theorem works_of_handOut {front back worked : List (Worker τ μ)}
    (hfront : ∀ w ∈ front, w.running = true) (hback : ∀ w ∈ back.head?, w.running = false)
    (h : (handOut job (front ++ back)).Follows es (.done worked))
    (hlength : worked.length = (front ++ back).length) :
    ∃ done, worked = done ++ back ∧
      Forall₂ (fun w w' => ∃ es, (work job w).Follows es (.done w')) front done := by
  have hnone : back.takeWhile (·.running) = [] ∧ back.dropWhile (·.running) = back := by
    cases back with
    | nil => exact ⟨rfl, rfl⟩
    | cons w back =>
      have hw := hback w rfl
      simp [hw]
  have htake : (front ++ back).takeWhile (·.running) = front := by
    rw [takeWhile_append_of_pos hfront, hnone.1, append_nil]
  have hdrop : (front ++ back).dropWhile (·.running) = back := by
    rw [dropWhile_append_of_pos hfront, hnone.2]
  rw [handOut, htake, hdrop] at h
  obtain ⟨es₁, es₂, done, rfl, hparallel, hrest⟩ := Follows.of_bind_done h
  obtain ⟨-, hdone⟩ := hrest.of_done
  cases hdone
  refine ⟨done, rfl, ?_⟩
  have hall := Protocol.follows_of_parallel hparallel (by simpa using hlength)
  exact forall₂_map_left_iff.mp hall

/-- What workers have to show after a job. -/
theorem equipped_of_works {front done : List (Worker τ μ)} (hfront : ∀ w ∈ front, w.running = true)
    (hequipped : ∀ w ∈ front, w.Equipped)
    (h : Forall₂ (fun w w' => ∃ es, (work job w).Follows es (.done w')) front done) :
    ∀ w ∈ done, w.Equipped ∧ (w.outbox ≠ [] ∨ w.running = false) := by
  induction h with
  | nil => exact fun w hw => by cases hw
  | @cons v v' front done hv _ ih =>
    obtain ⟨hr, hfront⟩ := forall_mem_cons.mp hfront
    obtain ⟨hm, hequipped⟩ := forall_mem_cons.mp hequipped
    refine forall_mem_cons.mpr ⟨?_, ih hfront hequipped⟩
    obtain ⟨es, hv⟩ := hv
    obtain ⟨u, rfl, -, houtcome, -⟩ := follows_work (hm hr) hr hv
    refine ⟨houtcome.equipped, ?_⟩
    rcases houtcome with hfailed | ⟨-, out, hout⟩
    · exact Or.inr hfailed.running
    · exact Or.inl (by simp [hout])

theorem start_run_threaded (ws : List (Worker τ μ)) : (Workers.run job).start (.threaded ws)
    = ((fanOut job).start ws).bind fun p => .done (p.1, .threaded p.2) :=
  rfl

/-- A call that a worker refuses. -/
theorem start_fanOut_of_refused {ws ws' : List (Worker τ μ)} {e : Error}
    (h : refusal ws = some (e, ws')) :
    (fanOut job).start ws
      = (handOut job ws').bind fun worked => .done (.error (.error e), worked) := by
  rw [fanOut, Session.start_bind_of_done (Session.start_get _)]
  simp only [h, Option.map_some, Option.getD_some]
  rw [Session.start_bind, Session.start_perform, Protocol.bind_assoc]
  rfl

/-- A call that all workers take. -/
theorem start_fanOut_of_taken {ws : List (Worker τ μ)} (h : refusal ws = none) :
    (fanOut job).start ws = (handOut job ws).bind fun worked =>
      .done ((collectAll worked).1.mapError .error, (collectAll worked).2) := by
  rw [fanOut, Session.start_bind_of_done (Session.start_get _)]
  simp only [h, Option.map_none, Option.getD_none]
  rw [Session.start_bind, Session.start_perform, Protocol.bind_assoc]
  congr 1
  funext worked
  simp only [Protocol.done_bind, Session.resume_ok]
  rw [Session.start_bind_of_done (Session.start_set _ _)]
  cases (collectAll worked).1 with
  | error e => rfl
  | ok outs => rfl

end Work

end Worker

namespace Thread

/-- The thread of a worker that has nothing to do. -/
structure Rests (t : Thread τ μ) (w : Worker τ μ) : Prop where
  link : t.link = w.link
  inbox : t.inbox = []
  listening : t.listening = w.running
  outbox : t.outbox = w.outbox
  speaking : t.speaking = w.running
  program : t.program = .done w.emptied

variable {t : Thread τ μ} {es : List Event} {w : Worker τ μ} {job : Job τ} {key : Option μ}
  {passive : Bool}

theorem Rests.collect_front (h : t.Rests w) : t.front.collect.1 = w.collect.1 ∧
    Rests { t with outbox := t.front.collect.2.outbox } w.collect.2 := by
  refine ⟨?_, { h with outbox := ?_ }⟩ <;> simp only [front, Worker.collect, h.outbox, h.link]

theorem Rests.failure_front (h : t.Rests w) : t.front.failure.1 = w.failure.1 ∧
    Rests { t with outbox := t.front.failure.2.outbox } w.failure.2 := by
  refine ⟨?_, { h with outbox := ?_ }⟩ <;> simp only [front, Worker.failure, h.outbox, h.link]

variable [ShareRing τ] [ShareRing μ] [Lift τ μ]

/-- Any number of steps of its own. -/
def Runs : Thread τ μ → Thread τ μ → Prop :=
  Relation.ReflTransGen Step

/-- The thread after it was given a job. -/
def handed (job : Job τ) (t : Thread τ μ) : Thread τ μ :=
  { t with inbox := t.inbox ++ [job] }

theorem runs_program {p : Protocol (Worker τ μ)} (h : t.program.Follows es p) :
    t.Runs { t with program := p } := by
  generalize hq : t.program = q at h
  induction h generalizing t with
  | nil =>
    subst hq
    exact .refl
  | @cons _ _ q _ _ hdoes _ ih =>
    rw [← hq] at hdoes
    exact .head (.act hdoes) (ih (t := { t with program := q }) rfl)

/-- A thread delivers what it has, and gives up its queues if it is at its end. -/
theorem exists_rests (hinbox : t.inbox = []) (hl : t.listening = true) (hs : t.speaking = true)
    (hprogram : t.program = .done w) (hlink : t.link = w.link) (hroom : t.outbox.length < queueRoom)
    (hlength : w.outbox.length ≤ 1) :
    ∃ t', t.Runs t' ∧ t'.Rests { w with outbox := t.outbox ++ w.outbox } := by
  obtain ⟨u, hu, hlink', hinbox', hl', hs', hout', hprogram'⟩ : ∃ u, t.Runs u ∧ u.link = w.link ∧
      u.inbox = [] ∧ u.listening = true ∧ u.speaking = true ∧ u.outbox = t.outbox ++ w.outbox ∧
      u.program = .done w.emptied := by
    cases hout : w.outbox with
    | nil =>
      refine ⟨t, .refl, hlink, hinbox, hl, hs, (append_nil _).symm, ?_⟩
      rw [hprogram, Worker.emptied, ← hout]
    | cons r rs =>
      rw [hout, length_cons] at hlength
      obtain rfl : rs = [] := eq_nil_of_length_eq_zero (by omega)
      exact ⟨_, .single (.deliver hprogram hout hroom), hlink, hinbox, hl, hs, rfl, rfl⟩
  rcases Bool.eq_false_or_eq_true w.running with hr | hr
  · exact ⟨u, hu, hlink', hinbox', hl'.trans hr.symm, hout', hs'.trans hr.symm, hprogram'⟩
  · have hstopped : u.Stopped := ⟨_, hprogram', hr, rfl⟩
    exact ⟨_, (hu.tail (.dropInbox hstopped)).tail (.dropOutbox hstopped),
      hlink', rfl, hr.symm, hout', hr.symm, hprogram'⟩

/-- A thread works on the job that it was given. -/
theorem Rests.work {w' : Worker τ μ} (h : t.Rests w) (hr : w.running = true)
    (hequipped : w.Equipped) (hroom : w.outbox.length < queueRoom)
    (hwork : (w.work job).Follows es (.done w')) : ∃ t', (t.handed job).Runs t' ∧ t'.Rests w' := by
  obtain ⟨v, rfl, hlink, houtcome, hfollows⟩ := Worker.follows_work (hequipped hr) hr hwork
  have hinbox : (t.handed job).inbox = [job] := by rw [handed, h.inbox, nil_append]
  have htake := Step.take (t := t.handed job) h.program hr rfl hinbox
  have hprogram := runs_program (t := { t with
    inbox := [], program := w.emptied.work job, task := some job }) hfollows
  obtain ⟨t', hruns, hrests⟩ := exists_rests (w := v)
    (t := { t with inbox := [], program := .done v, task := some job })
    rfl (h.listening.trans hr) (h.speaking.trans hr) rfl (h.link.trans hlink.symm)
    (by rw [h.outbox]; exact hroom) houtcome.length_le
  rw [h.outbox] at hrests
  exact ⟨t', .head htake (hprogram.trans hruns), hrests⟩

theorem exists_runs_of_works {ts : List (Thread τ μ)} {front done : List (Worker τ μ)}
    (hrests : Forall₂ Rests ts front) (hfront : ∀ w ∈ front, w.running = true)
    (hequipped : ∀ w ∈ front, w.Equipped) (hroom : ∀ w ∈ front, w.outbox.length < queueRoom)
    (h : Forall₂ (fun w w' => ∃ es, (w.work job).Follows es (.done w')) front done) :
    ∃ ts', Forall₂ Runs (ts.map (handed job)) ts' ∧ Forall₂ Rests ts' done := by
  induction hrests generalizing done with
  | nil =>
    cases h
    exact ⟨[], .nil, .nil⟩
  | cons ht _ ih =>
    cases h with
    | cons hw hrest =>
      obtain ⟨hr, hfront⟩ := forall_mem_cons.mp hfront
      obtain ⟨hm, hequipped⟩ := forall_mem_cons.mp hequipped
      obtain ⟨hone, hroom⟩ := forall_mem_cons.mp hroom
      obtain ⟨es, hw⟩ := hw
      obtain ⟨t', hruns, hrests⟩ := ht.work hr hm hone hw
      obtain ⟨ts', hallRun, hallRest⟩ := ih hfront hequipped hroom hrest
      exact ⟨t' :: ts', .cons hruns hallRun, .cons hrests hallRest⟩

/-- A thread comes out of the setup. -/
theorem exists_rests_of_start {l : LinkEnd} {seeds : Transfer.Seeds}
    (h : (Worker.start l seeds key passive).Follows es (.done w)) :
    ∃ t, Runs (launch l (Worker.start l seeds key passive)) t ∧ t.Rests w := by
  obtain ⟨hlink, houtcome⟩ := Worker.outcome_of_start h
  have hprogram := runs_program (t := launch l (Worker.start l seeds key passive)) h
  obtain ⟨t, hruns, hrests⟩ := exists_rests (w := w) (t := launch l (.done w)) rfl rfl rfl rfl
    hlink.symm (Nat.zero_lt_succ _) houtcome.length_le
  exact ⟨t, hprogram.trans hruns, hrests⟩

theorem exists_runs_of_starts {p : Player} {seeds : Nat → Transfer.Seeds} {peers : List Nat}
    {ws : List (Worker τ μ)}
    (h : Forall₂ (fun peer w => ∃ es,
      (Worker.start (p.link peer) (seeds peer) key passive).Follows es (.done w)) peers ws) :
    (∃ ts, Forall₂ Runs (peers.map fun peer =>
        launch (p.link peer) (Worker.start (p.link peer) (seeds peer) key passive)) ts ∧
      Forall₂ Rests ts ws) ∧ ∀ w ∈ ws, w.Equipped := by
  induction h with
  | nil => exact ⟨⟨[], .nil, .nil⟩, fun w hw => by cases hw⟩
  | cons hw _ ih =>
    obtain ⟨es, hw⟩ := hw
    obtain ⟨t, hruns, hrests⟩ := exists_rests_of_start hw
    obtain ⟨⟨ts, hallRun, hallRest⟩, hequipped⟩ := ih
    refine ⟨⟨t :: ts, .cons hruns hallRun, .cons hrests hallRest⟩, ?_⟩
    exact forall_mem_cons.mpr ⟨(Worker.outcome_of_start hw).2.equipped, hequipped⟩

end Thread

namespace Pool

theorem set_length (before after : List (Thread τ μ)) (t t' : Thread τ μ) :
    (before ++ t :: after).set before.length t' = before ++ t' :: after := by
  rw [set_append_right _ _ (Nat.le_refl _), Nat.sub_self, set_cons_zero]

variable [ShareRing τ] [ShareRing μ] [Lift τ μ]

/-- All threads are at rest, and there is no call. -/
structure Resting (s : Pool τ μ) (ws : List (Worker τ μ)) : Prop where
  threads : Forall₂ Thread.Rests s.threads ws
  stage : s.stage = .ready
  equipped : ∀ w ∈ ws, w.Equipped

variable (before after : List (Thread τ μ)) (stage : Stage τ μ) (job : Job τ)
  (answers : List (Job τ × Except Error (List (Output τ μ)))) {ts : List (Thread τ μ)}
  {ws : List (Worker τ μ)} {t : Thread τ μ} {w : Worker τ μ} {σ : Type} {p : Player} {c : Config}

/-- One thread makes steps. -/
theorem reaches_of_runs {t' : Thread τ μ} (h : t.Runs t') :
    Reaches ⟨before ++ t :: after, stage, answers⟩ ⟨before ++ t' :: after, stage, answers⟩ := by
  induction h with
  | refl => exact .refl
  | @tail u u' _ hstep ih =>
    have hthread := Step.thread (k := before.length) (by simp) hstep
      (s := ⟨before ++ u :: after, stage, answers⟩)
    rw [set_length] at hthread
    exact ih.tail hthread

/-- The threads make steps one after the other. -/
theorem reaches_of_forall₂ {ts' : List (Thread τ μ)} (h : Forall₂ Thread.Runs ts ts') :
    Reaches ⟨before ++ (ts ++ after), stage, answers⟩ ⟨before ++ (ts' ++ after), stage, answers⟩ := by
  induction h generalizing before with
  | nil => exact .refl
  | @cons t t' ts ts' ht _ ih =>
    have hrest := ih (before ++ [t'])
    rw [append_assoc, append_assoc] at hrest
    exact (reaches_of_runs _ _ _ _ ht).trans hrest

/-- All workers that are running are given the job. -/
theorem reaches_handing (hts : Forall₂ Thread.Rests ts ws) (hws : ∀ w ∈ ws, w.running = true) :
    Reaches ⟨before ++ (ts ++ after), .handing job before.length, answers⟩
      ⟨before ++ (ts.map (Thread.handed job) ++ after), .handing job (before.length + ts.length),
        answers⟩ := by
  induction hts generalizing before with
  | nil => exact .refl
  | @cons t w ts ws ht _ ih =>
    obtain ⟨hw, hws⟩ := forall_mem_cons.mp hws
    have hhand := Step.hand (t := t) rfl (by simp) (ht.listening.trans hw)
      (by rw [ht.inbox]; exact Nat.zero_lt_succ _)
      (s := ⟨before ++ t :: (ts ++ after), .handing job before.length, answers⟩)
    rw [set_length] at hhand
    have hrest := ih (before ++ [t.handed job]) hws
    rw [append_assoc, append_assoc, length_append, length_singleton,
      Nat.add_assoc, Nat.add_comm 1] at hrest
    exact .head hhand hrest

/-- Results are collected up to the first error. -/
theorem reaches_collecting (outs : List (Output τ μ)) (hts : Forall₂ Thread.Rests ts ws)
    (hws : ∀ w ∈ ws, w.outbox ≠ [] ∨ w.running = false) (hlength : before.length = outs.length) :
    ∃ ts', Forall₂ Thread.Rests ts' (Worker.collectAll ws).2 ∧
      Reaches ⟨before ++ ts, .collecting job outs, answers⟩
        ⟨before ++ ts', .ready, answers ++ [(job, (Worker.collectAll ws).1.map (outs ++ ·))]⟩ := by
  induction hts generalizing before outs with
  | nil =>
    have hfinish := Step.finish rfl (by simp [hlength])
      (s := ⟨before ++ [], .collecting job outs, answers⟩)
    refine ⟨[], .nil, ?_⟩
    simp only [Worker.collectAll, Except.map, append_nil] at hfinish ⊢
    exact .single hfinish
  | @cons t w ts ws ht hts ih =>
    obtain ⟨hw, hws⟩ := forall_mem_cons.mp hws
    obtain ⟨hfront, hrests⟩ := ht.collect_front
    have hthread : (before ++ t :: ts)[outs.length]? = some t := by
      rw [← hlength]
      simp
    have hready : t.outbox ≠ [] ∨ t.speaking = false := by
      rw [ht.outbox, ht.speaking]
      exact hw
    rw [Worker.collectAll]
    split
    · next e w' hcollect =>
        rw [hcollect] at hfront hrests
        have herror := Step.collectError rfl hthread hready hfront
          (s := ⟨before ++ t :: ts, .collecting job outs, answers⟩)
        rw [← hlength, set_length] at herror
        exact ⟨_ :: ts, .cons hrests hts, .single herror⟩
    · next out w' hcollect =>
        rw [hcollect] at hfront hrests
        have hok := Step.collect rfl hthread hready hfront
          (s := ⟨before ++ t :: ts, .collecting job outs, answers⟩)
        rw [← hlength, set_length] at hok
        obtain ⟨ts', hrests', hreach⟩ := ih
          (before ++ [{ t with outbox := t.front.collect.2.outbox }]) (outs ++ [out]) hws
          (by simp [hlength])
        have hmore : ((Worker.collectAll ws).1.map (out :: ·)).map (outs ++ ·)
            = (Worker.collectAll ws).1.map (outs ++ [out] ++ ·) := by
          cases (Worker.collectAll ws).1 with
          | error e => rfl
          | ok rest => simp [Except.map]
        rw [append_assoc, append_assoc, ← hmore] at hreach
        exact ⟨_ :: ts', .cons hrests hrests', .head hok hreach⟩

namespace Resting

variable {job : Job τ} {s : Pool τ μ} {ws' worked : List (Worker τ μ)} {es : List Event}

/-- A call that all workers take: they work side by side, and then their results are collected. -/
theorem taken (h : s.Resting ws) (hroom : ∀ w ∈ ws, w.outbox.length < queueRoom)
    (htaken : Worker.refusal ws = none) (hwork : (Worker.handOut job ws).Follows es (.done worked))
    (hlength : worked.length = ws.length) :
    ∃ s', s.Reaches s' ∧ s'.Resting (Worker.collectAll worked).2 ∧
      s'.answers = s.answers ++ [(job, (Worker.collectAll worked).1)] := by
  have hrunning := Worker.running_of_refusal_eq_none htaken
  rw [← append_nil ws] at hwork hlength
  obtain ⟨done, rfl, hworks⟩ := Worker.works_of_handOut hrunning (fun w hw => (by cases hw)) hwork hlength
  rw [append_nil done]
  have hdone := Worker.equipped_of_works hrunning h.equipped hworks
  obtain ⟨ts, hruns, hts⟩ := Thread.exists_runs_of_works h.threads hrunning h.equipped hroom hworks
  have hhand := reaches_handing [] [] job s.answers h.threads hrunning
  have hwork := reaches_of_forall₂ [] [] (.collecting job []) s.answers hruns
  obtain ⟨ts', hts', hcollect⟩ := reaches_collecting [] job s.answers [] hts
    (fun w hw => (hdone w hw).2) rfl
  simp only [nil_append, append_nil, length_nil, Nat.zero_add] at hhand hwork hcollect
  have hhanded := Step.handed (by rw [length_map])
    (s := ⟨s.threads.map (Thread.handed job), .handing job s.threads.length, s.answers⟩)
  have hsame : (Worker.collectAll done).1.map (fun outs => outs) = (Worker.collectAll done).1 := by
    cases (Worker.collectAll done).1 with
    | error e => rfl
    | ok outs => rfl
  rw [hsame] at hcollect
  refine ⟨⟨ts', .ready, _⟩, ?_, ⟨hts', rfl, ?_⟩, rfl⟩
  · exact .head (.call job h.stage) (hhand.trans (.head hhanded (hwork.trans hcollect)))
  · exact Worker.equipped_of_map_emptied (Worker.map_emptied_collectAll done) fun w hw => (hdone w hw).1

/-- A call that a worker refuses: those before it have taken the job, and work on it although the
call has failed. -/
theorem refused (h : s.Resting ws) (hroom : ∀ w ∈ ws, w.outbox.length < queueRoom) {e : Error}
    (hrefused : Worker.refusal ws = some (e, ws'))
    (hwork : (Worker.handOut job ws').Follows es (.done worked)) (hlength : worked.length = ws.length) :
    ∃ s', s.Reaches s' ∧ s'.Resting worked ∧ s'.answers = s.answers ++ [(job, .error e)] := by
  obtain ⟨front, w, back, rfl, hfront, hw, rfl, rfl⟩ := Worker.exists_of_refusal_eq_some hrefused
  obtain ⟨done, rfl, hworks⟩ := Worker.works_of_handOut hfront
    (fun v hv => (by cases hv; exact hw)) hwork (by simpa using hlength)
  obtain ⟨hroom, -⟩ := forall_mem_append.mp hroom
  obtain ⟨hequipped, hrest⟩ := forall_mem_append.mp h.equipped
  obtain ⟨threads, stage, answers⟩ := s
  obtain ⟨hthreads, rfl, -⟩ := h
  have hbefore := forall₂_take_append _ _ _ hthreads
  have hafter := forall₂_drop_append _ _ _ hthreads
  rw [← take_append_drop front.length threads]
  generalize threads.take front.length = ts at hbefore
  generalize threads.drop front.length = rest at hafter
  cases hafter with
  | @cons t _ after _ ht hafter =>
    obtain ⟨hfailure, hfailed⟩ := ht.failure_front
    obtain ⟨ts', hruns, hts'⟩ := Thread.exists_runs_of_works hbefore hfront hequipped hroom hworks
    have hhand := reaches_handing [] (t :: after) job answers hbefore hfront
    have hrefuse := Step.refuse (t := t) rfl (by simp) (ht.listening.trans hw)
      (s := ⟨ts.map (Thread.handed job) ++ t :: after,
        .handing job (ts.map (Thread.handed job)).length, answers⟩)
    rw [set_length, length_map, hfailure] at hrefuse
    have hwork := reaches_of_forall₂ [] ({ t with outbox := t.front.failure.2.outbox } :: after)
      .ready (answers ++ [(job, .error w.failure.1)]) hruns
    simp only [nil_append, length_nil, Nat.zero_add] at hhand hwork
    refine ⟨_, .head (.call job rfl) (hhand.trans (.head hrefuse hwork)), ⟨?_, rfl, ?_⟩, rfl⟩
    · exact rel_append hts' (.cons hfailed hafter)
    · have hequipped' := Worker.equipped_of_works hfront hequipped hworks
      have hsame : (w.failure.2 :: back).map Worker.emptied = (w :: back).map Worker.emptied := rfl
      exact forall_mem_append.mpr
        ⟨fun v hv => (hequipped' v hv).1, Worker.equipped_of_map_emptied hsame hrest⟩

/-- **A call of a generator whose threads are at rest is a run of its threads.** -/
theorem run (h : s.Resting ws) (hroom : ∀ w ∈ ws, w.outbox.length < queueRoom)
    {r : Except Failure (List (Output τ μ))}
    (hrun : ((Workers.run job).start (.threaded ws)).Follows es (.done (r, .threaded ws')))
    (hlength : ws'.length = ws.length) :
    ∃ s' answer, s.Reaches s' ∧ s'.Resting ws' ∧ r = answer.mapError .error ∧
      s'.answers = s.answers ++ [(job, answer)] := by
  rw [Worker.start_run_threaded] at hrun
  obtain ⟨es₁, es₂, p, rfl, hfan, hrest⟩ := hrun.of_bind_done
  obtain ⟨-, hdone⟩ := hrest.of_done
  cases hdone
  cases hrefusal : Worker.refusal ws with
  | none =>
    rw [Worker.start_fanOut_of_taken hrefusal] at hfan
    obtain ⟨es₃, es₄, worked, rfl, hwork, hend⟩ := hfan.of_bind_done
    obtain ⟨-, hdone⟩ := hend.of_done
    obtain ⟨hr, hws⟩ := Prod.mk.inj (Protocol.done.inj hdone)
    have hsame := congrArg length (Worker.map_emptied_collectAll worked)
    rw [length_map, length_map, ← hws, hlength] at hsame
    obtain ⟨s', hreach, hrests, hanswers⟩ := h.taken hroom hrefusal hwork hsame.symm
    rw [← hws] at hrests
    exact ⟨s', _, hreach, hrests, hr, hanswers⟩
  | some refused =>
    obtain ⟨e, ws₁⟩ := refused
    rw [Worker.start_fanOut_of_refused hrefusal] at hfan
    obtain ⟨es₃, es₄, worked, rfl, hwork, hend⟩ := hfan.of_bind_done
    obtain ⟨-, hdone⟩ := hend.of_done
    obtain ⟨hr, hws⟩ := Prod.mk.inj (Protocol.done.inj hdone)
    obtain ⟨s', hreach, hrests, hanswers⟩ := h.refused hroom hrefusal hwork (hws ▸ hlength)
    rw [← hws] at hrests
    exact ⟨s', .error e, hreach, hrests, hr, hanswers⟩

end Resting

omit [ShareRing τ] [Lift τ μ] in
/-- The setups of all workers run side by side. -/
theorem start_ofSeeds (key : Option μ) (seeds : Nat → Transfer.Seeds) (u : σ)
    (hthreaded : c.threaded = true) :
    (Generator.ofSeeds p c key (p.peers.map fun peer => (peer, seeds peer)) :
        Session σ (Generator τ μ)).start u
      = (Protocol.parallel (p.peers.map fun peer =>
          Worker.start (p.link peer) (seeds peer) key c.passive)).bind fun ws =>
            .done (.ok ⟨p, c.batchSize, key, .threaded ws⟩, u) := by
  simp only [Generator.ofSeeds, hthreaded, if_true, Session.start_bind, Session.start_perform,
    Protocol.bind_assoc, map_map]
  rfl

/-- **A generator that has been set up has its threads at rest.** -/
theorem reaches_ofSeeds {key : Option μ} {seeds : Nat → Transfer.Seeds} {ws : List (Worker τ μ)}
    {es : List Event} {u u' : σ} (hthreaded : c.threaded = true)
    (h : ((Generator.ofSeeds p c key (p.peers.map fun peer => (peer, seeds peer)) :
      Session σ (Generator τ μ)).start u).Follows es
        (.done (.ok ⟨p, c.batchSize, key, .threaded ws⟩, u')))
    (hlength : ws.length = p.peers.length) :
    ∃ s, (launch p fun peer => Worker.start (p.link peer) (seeds peer) key c.passive).Reaches s ∧
      s.Resting ws ∧ s.answers = [] := by
  rw [start_ofSeeds key seeds u hthreaded] at h
  obtain ⟨es₁, es₂, ws₁, rfl, hparallel, hrest⟩ := h.of_bind_done
  obtain ⟨-, hdone⟩ := hrest.of_done
  cases hdone
  have hall := Protocol.follows_of_parallel hparallel (by rwa [length_map])
  rw [forall₂_map_left_iff] at hall
  obtain ⟨⟨ts, hruns, hrests⟩, hequipped⟩ := Thread.exists_runs_of_starts hall
  have hreach := reaches_of_forall₂ [] [] .ready [] hruns
  simp only [nil_append, append_nil] at hreach
  exact ⟨⟨ts, .ready, []⟩, hreach, ⟨hrests, rfl, hequipped⟩, rfl⟩

end Pool

end Beaver
