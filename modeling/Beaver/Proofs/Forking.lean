import Mathlib.Data.List.Nodup
import Beaver.Proofs.Interleaving
import Beaver.Proofs.SideBySide

/-!
# Talking to all peers at once

Suppose all parties fork into one program for each peer, and the two programs of every
two parties meet.  Then all of them come to an end, whatever the order of their steps,
and the run goes on from the joined results (`Settles.of_fork`).

A party whose programs have all ended may run ahead of the others.  What it has sent
since stands behind everything that the programs still running have to receive, so the
two can be kept apart: the invariant `Forked` splits what is on its way accordingly.
-/

namespace Beaver

open Function (update update_of_ne update_self)
open List
open Protocol (parallel ParallelView parallel_view eq_done_of_isDone)

variable {α β : Type}

/-- The other parties in ascending order. -/
def others (n i : Nat) : List Nat := (range n).filter (· ≠ i)

variable {n i j : Nat} {w : World α} {post : Outcome α} {k : Nat → List β → Protocol α}
variable {R : Nat → Nat → β → β → Prop} {t : Nat → Nat → Protocol β}

@[simp]
theorem mem_others : j ∈ others n i ↔ j < n ∧ j ≠ i := by
  simp [others]

theorem nodup_others (n i : Nat) : (others n i).Nodup :=
  nodup_range.filter _

/-- Setting one entry of a list of values is changing the function that gives them. -/
theorem map_set_eq_map_update {l : List Nat} (hl : l.Nodup) (f : Nat → β) {s : Nat}
    (hs : l[s]? = some j) (b : β) : (l.map f).set s b = l.map (update f j b) := by
  apply ext_getElem?
  intro k
  rw [getElem?_set, getElem?_map, getElem?_map]
  by_cases hk : s = k
  · subst hk
    have hlt : s < l.length := (List.getElem?_eq_some_iff.mp hs).1
    have hget : l[s] = j := (List.getElem?_eq_some_iff.mp hs).2
    simp [hlt, hget]
  · cases hlk : l[k]? with
    | none => simp [hk]
    | some j' =>
      have hne : j' ≠ j := by
        rintro rfl
        exact hk ((List.getElem?_inj (List.getElem?_eq_some_iff.mp hs).1 hl).mp (hs.trans hlk.symm))
      simp [hk, hne]

/-- Programs of all parties for all peers, after one step of the one of party `i` for
peer `j`. -/
def setThread (t : Nat → Nat → Protocol β) (i j : Nat) (q : Protocol β) :
    Nat → Nat → Protocol β :=
  update t i (update (t i) j q)

@[simp]
theorem setThread_self (t : Nat → Nat → Protocol β) (i j : Nat) (q : Protocol β) :
    setThread t i j q i j = q := by
  simp [setThread]

@[simp]
theorem setThread_row (t : Nat → Nat → Protocol β) (i j : Nat) (q : Protocol β) :
    setThread t i j q i = update (t i) j q := by
  simp [setThread]

theorem setThread_of_ne (t : Nat → Nat → Protocol β) {a : Nat} (h : a ≠ i) (q : Protocol β) :
    setThread t i j q a = t a := by
  simp [setThread, h]

theorem setThread_other (t : Nat → Nat → Protocol β) {a b : Nat} (h : (a, b) ≠ (i, j))
    (q : Protocol β) : setThread t i j q a b = t a b := by
  by_cases ha : a = i
  · subst ha
    have hb : b ≠ j := fun hb => h (by rw [hb])
    simp [hb]
  · rw [setThread_of_ne t ha]

/-- Party `i` still runs programs for some of its peers. -/
def Busy (n : Nat) (t : Nat → Nat → Protocol β) (i : Nat) : Prop :=
  i < n ∧ ∃ j ∈ others n i, (t i j).isDone = false

instance (n : Nat) (t : Nat → Nat → Protocol β) (i : Nat) : Decidable (Busy n t i) :=
  inferInstanceAs (Decidable (_ ∧ _))

/-- A run in which the parties work through their programs `t` for each other.  Of the
messages on their way, `x` is for these programs and `y` was sent by parties that are
through.  What comes after the programs settles, whatever they give. -/
structure Forked (n : Nat) (post : Outcome α) (k : Nat → List β → Protocol α)
    (R : Nat → Nat → β → β → Prop) (t : Nat → Nat → Protocol β)
    (x y : Nat × Nat → List Bytes) (w : World α) : Prop where
  symm : ∀ i j a b, R i j a b → R j i b a
  program : ∀ i, Busy n t i → w.program i = (parallel ((others n i).map (t i))).bind (k i)
  flight : ∀ key, w.flight key = x key ++ y key
  behind : ∀ i, Busy n t i → ∀ j, y (i, j) = []
  between : ∀ i j, x (i, j) ≠ [] → i < n ∧ j < n ∧ i ≠ j
  meets : ∀ i j, i < n → j < n → i ≠ j → ∀ s u,
    Meets i j (fun a b _ _ => R i j a b) (t i j) (t j i) (x (i, j)) (x (j, i)) s u
  rest : ∀ r : Nat → Nat → β, (∀ i j, i < n → j < n → i ≠ j → R i j (r i j) (r j i)) →
    (∀ i j b, i < n → j < n → i ≠ j → t i j = .done b → r i j = b) →
    ∀ tape : Nat → Tape, (∀ i, ¬ Busy n t i → tape i = w.tape i) →
    Settles n post
      ⟨fun i => if Busy n t i then k i ((others n i).map (r i)) else w.program i, y, tape⟩

namespace Forked

variable {n : Nat} {post : Outcome α} {k : Nat → List β → Protocol α}
variable {R : Nat → Nat → β → β → Prop} {t : Nat → Nat → Protocol β}
variable {x y x' : Nat × Nat → List Bytes} {w w' : World α} {p j : Nat}

/-- A party that is through has its results. -/
theorem done_of_not_busy (hp : p < n) (hbusy : ¬ Busy n t p) (hj : j < n) (hjp : j ≠ p) :
    ∃ b, t p j = .done b := by
  apply eq_done_of_isDone
  by_contra hlive
  exact hbusy ⟨hp, j, mem_others.mpr ⟨hj, hjp⟩, by simpa using hlive⟩

theorem busy_setThread_of_ne {i : Nat} (hi : i ≠ p) (q : Protocol β) :
    Busy n (setThread t p j q) i ↔ Busy n t i := by
  simp only [Busy, setThread_of_ne t hi]

/-- A party that is through goes on with the joined results. -/
theorem parallel_of_not_busy {r : Nat → Nat → β} (hp : p < n) (hbusy : ¬ Busy n t p)
    (hr : ∀ i j b, i < n → j < n → i ≠ j → t i j = .done b → r i j = b) :
    parallel ((others n p).map (t p)) = .done ((others n p).map (r p)) := by
  have hdone : (others n p).map (t p) = ((others n p).map (r p)).map .done := by
    rw [map_map]
    apply map_congr_left
    intro j hj
    obtain ⟨hjn, hjp⟩ := mem_others.mp hj
    obtain ⟨b, hb⟩ := done_of_not_busy hp hbusy hjn hjp
    rw [hb, Function.comp_apply, hr p j b hp hjn (Ne.symm hjp) hb]
  rw [hdone, Protocol.parallel_map_done]

variable {q : Protocol β} {peer : Nat} {peers : List Nat}
variable {f : Fin peers.length → Option Bytes → Protocol β} {m : Bytes}

/-- The program of a busy party at some place of its list is the one for some peer. -/
theorem thread_at {l : Nat} (hl : ((others n p).map (t p))[l]? = some q) :
    ∃ j, j < n ∧ j ≠ p ∧ t p j = q ∧
      ∀ q', ((others n p).map (t p)).set l q' = (others n p).map (setThread t p j q' p) := by
  rw [getElem?_map] at hl
  obtain ⟨j, hj, rfl⟩ := Option.map_eq_some_iff.mp hl
  obtain ⟨hjn, hjp⟩ := mem_others.mp (mem_of_getElem? hj)
  refine ⟨j, hjn, hjp, rfl, fun q' => ?_⟩
  rw [setThread_row, map_set_eq_map_update (nodup_others n p) (t p) hj]

variable (h : Forked n post k R t x y w)
include h

/-- **One of the programs for a peer makes a step.** -/
theorem advance (hp : p < n) (hj : j < n) (hjp : j ≠ p) (hlive : (t p j).isDone = false)
    (hprogram : w'.program p = (parallel ((others n p).map (setThread t p j q p))).bind (k p))
    (hprogram_other : ∀ i, i ≠ p → w'.program i = w.program i)
    (htape_other : ∀ i, i ≠ p → w'.tape i = w.tape i)
    (hflight : ∀ key, w'.flight key = x' key ++ y key)
    (hx : ∀ a b, (a, b) ≠ (p, j) → (a, b) ≠ (j, p) → x' (a, b) = x (a, b))
    (hmeets : ∀ s u, Meets p j (fun a b _ _ => R p j a b) q (t j p) (x' (p, j)) (x' (j, p)) s u) :
    Forked n post k R (setThread t p j q) x' y w' where
  symm := h.symm
  program i hi := by
    by_cases hip : i = p
    · rw [hip]; exact hprogram
    · rw [hprogram_other i hip, setThread_of_ne t hip]
      exact h.program i ((busy_setThread_of_ne hip q).mp hi)
  flight := hflight
  behind i hi := by
    by_cases hip : i = p
    · rw [hip]
      exact h.behind p ⟨hp, j, mem_others.mpr ⟨hj, hjp⟩, hlive⟩
    · exact h.behind i ((busy_setThread_of_ne hip q).mp hi)
  between a b hab := by
    by_cases hpj : (a, b) = (p, j)
    · cases hpj
      exact ⟨hp, hj, Ne.symm hjp⟩
    · by_cases hjp' : (a, b) = (j, p)
      · cases hjp'
        exact ⟨hj, hp, hjp⟩
      · rw [hx a b hpj hjp'] at hab
        exact h.between a b hab
  meets a b ha hb hab s u := by
    by_cases hpj : (a, b) = (p, j)
    · cases hpj
      rw [setThread_self, setThread_of_ne t hjp]
      exact hmeets s u
    · by_cases hjp' : (a, b) = (j, p)
      · cases hjp'
        rw [setThread_self, setThread_of_ne t hjp]
        exact (hmeets u s).symm.mono fun _ _ _ _ hR => h.symm _ _ _ _ hR
      · have hba : (b, a) ≠ (p, j) := fun heq => hjp' (by cases heq; rfl)
        have hba' : (b, a) ≠ (j, p) := fun heq => hpj (by cases heq; rfl)
        rw [setThread_other t hpj, setThread_other t hba, hx a b hpj hjp', hx b a hba hba']
        exact h.meets a b ha hb hab s u
  rest r hr hdone tape htape := by
    have hbusy : Busy n t p := ⟨hp, j, mem_others.mpr ⟨hj, hjp⟩, hlive⟩
    -- a program that was done before the step is done after it
    have hdone' : ∀ a b c, a < n → b < n → a ≠ b → t a b = .done c → r a b = c := by
      intro a b c ha hb hab hc
      apply hdone a b c ha hb hab
      have hne : (a, b) ≠ (p, j) := by
        rintro ⟨⟩
        rw [hc] at hlive
        cases hlive
      rw [setThread_other t hne, hc]
    have htape' : ∀ i, ¬ Busy n t i → tape i = w.tape i := by
      intro i hi
      have hip : i ≠ p := fun hip => hi (hip ▸ hbusy)
      rw [htape i (fun hi' => hi ((busy_setThread_of_ne hip q).mp hi')), htape_other i hip]
    convert h.rest r hr hdone' tape htape' using 3 with i
    by_cases hip : i = p
    · subst hip
      by_cases hbusy' : Busy n (setThread t i j q) i
      · simp only [hbusy, hbusy', if_true]
      · simp only [hbusy, hbusy', if_true, if_false]
        rw [hprogram, parallel_of_not_busy hp hbusy' hdone]
        rfl
    · simp only [busy_setThread_of_ne hip q, hprogram_other i hip]

/-- Nothing on its way to a party that is through was sent by the others' programs. -/
theorem flight_to_ahead (hbusy : ¬ Busy n t p) (a : Nat) : x (a, p) = [] := by
  by_contra hne
  obtain ⟨ha, hp, hap⟩ := h.between a p hne
  obtain ⟨b, hb⟩ := done_of_not_busy hp hbusy ha hap
  have s : Tape := w.tape p
  have hmeet := h.meets p a hp ha (Ne.symm hap) s s
  rw [hb] at hmeet
  exact hne hmeet.done_left

/-- **A party that is through runs ahead.** -/
theorem ahead (hp : p < n) (hbusy : ¬ Busy n t p) (hmove : Moves p w w') :
    ∃ y', Forked n post k R t x y' w' := by
  have hprogram_other : ∀ i, i ≠ p → w'.program i = w.program i := fun i => hmove.program_other
  have htape_other : ∀ i, i ≠ p → w'.tape i = w.tape i := fun i => hmove.tape_other
  have hne : ∀ i, Busy n t i → i ≠ p := fun i hi hip => hbusy (hip ▸ hi)
  obtain ⟨e, rfl, -, hagain⟩ := hmove.as_turn
  let y' : Nat × Nat → List Bytes := fun key =>
    (if key.2 = p then (y key).drop (e.taken key.1) else y key)
      ++ if key.1 = p then e.sent key.2 else []
  refine ⟨y', h.symm, ?_, ?_, ?_, h.between, h.meets, ?_⟩
  · intro i hi
    rw [hprogram_other i (hne i hi)]
    exact h.program i hi
  · rintro ⟨a, b⟩
    by_cases hb : b = p
    · subst hb
      simp [World.turn, y', h.flight, h.flight_to_ahead hbusy]
    · simp [World.turn, y', h.flight, hb]
  · intro i hi b
    simp [y', h.behind i hi, hne i hi]
  · intro r hr hdone tape htape
    -- the same turn, in the run where all parties have their results
    let v : World α := ⟨fun i => if Busy n t i then k i ((others n i).map (r i)) else w.program i,
      y, update tape p (w.tape p)⟩
    have hv : Settles n post v := by
      apply h.rest r hr hdone
      intro i hi
      by_cases hip : i = p
      · simp [hip]
      · rw [update_of_ne hip, htape i hi, htape_other i hip]
    have hturn : Moves p v (v.turn p e) := by
      apply hagain v
      · simp [v, hbusy]
      · simp [v]
      · intro a
        rw [h.flight, h.flight_to_ahead hbusy]
        exact prefix_rfl
    have hsame : v.turn p e = ⟨fun i => if Busy n t i then k i ((others n i).map (r i))
        else (w.turn p e).program i, y', tape⟩ := by
      ext1
      · funext i
        by_cases hip : i = p
        · subst hip
          simp [World.turn, hbusy]
        · simp [World.turn, v, hip]
      · rfl
      · have hlast := htape p hbusy
        simp only [World.turn, v, update_self, Function.update_idem] at hlast ⊢
        rw [← hlast]
        exact Function.update_eq_self p tape
    rw [← hsame]
    cases hv with
    | finished a hdone' hpost => exact absurd (hdone' p hp) (hturn.not_done _)
    | running hlive hwait hnext => exact hnext p _ hp hturn

/-- What a busy party does is what one of its programs does. -/
theorem view (hbusy : Busy n t p) :
    ∃ q, w.program p = q.bind (k p) ∧ ParallelView ((others n p).map (t p)) q :=
  ⟨_, h.program p hbusy, parallel_view _⟩

/-- Not all programs of a busy party are done. -/
theorem not_all_done (hbusy : Busy n t p)
    (hall : ∀ q ∈ (others n p).map (t p), (∃ b, q = .done b) ∨ ∃ f, q = .recv [] f) : False := by
  obtain ⟨hp, j, hj, hlive⟩ := hbusy
  obtain ⟨hjn, hjp⟩ := mem_others.mp hj
  rcases hall (t p j) (mem_map_of_mem hj) with ⟨b, hb⟩ | ⟨f, hf⟩
  · rw [hb] at hlive
    cases hlive
  · have hmeet := h.meets p j hp hjn (Ne.symm hjp) (w.tape p) (w.tape p)
    rw [hf] at hmeet
    cases hmeet.recv_peers

/-- None of the programs gives up a link. -/
theorem not_close (hp : p < n) (hj : j < n) (hjp : j ≠ p) {next : Protocol β} :
    t p j ≠ .close peer next := by
  intro hclose
  have hmeet := h.meets p j hp hj (Ne.symm hjp) (w.tape p) (w.tape p)
  rw [hclose] at hmeet
  exact hmeet.not_close

/-- A program waits for its own peer only. -/
theorem waits_for (hp : p < n) (hj : j < n) (hjp : j ≠ p)
    (hthread : t p j = .recv peers f) : peers = [j] := by
  have hmeet := h.meets p j hp hj (Ne.symm hjp) (w.tape p) (w.tape p)
  rw [hthread] at hmeet
  exact hmeet.recv_peers

/-- While a program waits for a message, the other end is still busy. -/
theorem busy_of_waiting (hp : p < n) (hj : j < n) (hjp : j ≠ p)
    (hthread : t p j = .recv peers f) (hnone : x (j, p) = []) : Busy n t j := by
  by_contra hbusy
  obtain ⟨b, hb⟩ := done_of_not_busy hj hbusy hp (Ne.symm hjp)
  have hmeet := h.meets j p hj hp hjp (w.tape p) (w.tape p)
  rw [hb, hthread, hnone] at hmeet
  exact hmeet.not_abandoned

theorem send_step (hbusy : Busy n t p) (hj : j < n) (hjp : j ≠ p)
    (hthread : t p j = .send peer m q) :
    ∃ x', Forked n post k R (setThread t p j q) x' y
      (w.post p peer m ((parallel ((others n p).map (setThread t p j q p))).bind (k p))) := by
  have hmeet : ∀ s u, peer = j ∧ Meets p j (fun a b _ _ => R p j a b) q (t j p)
      (x (p, j) ++ [m]) (x (j, p)) s u := by
    intro s u
    have hmeet := h.meets p j hbusy.1 hj (Ne.symm hjp) s u
    rw [hthread] at hmeet
    exact hmeet.send_inv
  obtain rfl : peer = j := (hmeet (w.tape p) (w.tape p)).1
  refine ⟨update x (p, peer) (x (p, peer) ++ [m]),
    h.advance hbusy.1 hj hjp (by rw [hthread]; rfl) ?_ ?_ ?_ ?_ ?_ ?_⟩
  · simp [World.post]
  · intro i hi
    simp [World.post, hi]
  · intro i _
    rfl
  · intro key
    by_cases hkey : key = (p, peer)
    · subst hkey
      simp [World.post, h.flight, h.behind p hbusy]
    · simp [World.post, h.flight, hkey]
  · intro a b hab _
    exact update_of_ne hab _ _
  · intro s u
    have hkey : (peer, p) ≠ (p, peer) := fun heq => hjp (Prod.ext_iff.mp heq).1
    rw [update_self, update_of_ne hkey]
    exact (hmeet s u).2

theorem draw_step (hbusy : Busy n t p) (hj : j < n) (hjp : j ≠ p) {c : Nat}
    {f : Bytes → Protocol β} (hthread : t p j = .draw c f) (bs : Bytes) (hbs : bs.length = c) :
    Forked n post k R (setThread t p j (f bs)) x y
      (w.drawn p ((parallel ((others n p).map (setThread t p j (f bs) p))).bind (k p))) := by
  refine h.advance hbusy.1 hj hjp (by rw [hthread]; rfl) ?_ ?_ ?_ ?_ ?_ ?_
  · simp [World.drawn]
  · intro i hi
    simp [World.drawn, hi]
  · intro i hi
    simp [World.drawn, hi]
  · exact h.flight
  · intro a b _ _
    rfl
  · intro s u
    -- the programs meet whatever is drawn, so also if these bytes are
    have hmeet := h.meets p j hbusy.1 hj (Ne.symm hjp) (s.cons bs) u
    rw [hthread] at hmeet
    have hnext := hmeet.draw_inv
    rw [← hbs, Tape.next_cons, Tape.tail_cons] at hnext
    exact hnext

theorem recv_step (hbusy : Busy n t p) (hj : j < n) (hjp : j ≠ p)
    {f : Fin [j].length → Option Bytes → Protocol β} (hthread : t p j = .recv [j] f)
    {rest : List Bytes} (hm : w.flight (j, p) = m :: rest) :
    ∃ x', Forked n post k R (setThread t p j (f ⟨0, Nat.zero_lt_one⟩ (some m))) x' y
      (w.take p j rest ((parallel ((others n p).map
        (setThread t p j (f ⟨0, Nat.zero_lt_one⟩ (some m)) p))).bind (k p))) := by
  obtain ⟨xs, hxs, hrest⟩ : ∃ xs, x (j, p) = m :: xs ∧ rest = xs ++ y (j, p) := by
    rw [h.flight] at hm
    cases hx : x (j, p) with
    | nil =>
      -- then it was sent by a party that is through, which nobody waits for
      have hbusy' := h.busy_of_waiting hbusy.1 hj hjp hthread hx
      rw [hx, h.behind j hbusy'] at hm
      cases hm
    | cons m' xs =>
      rw [hx] at hm
      obtain ⟨rfl, rfl⟩ := cons_eq_cons.mp hm
      exact ⟨xs, rfl, rfl⟩
  refine ⟨update x (j, p) xs, h.advance hbusy.1 hj hjp (by rw [hthread]; rfl) ?_ ?_ ?_ ?_ ?_ ?_⟩
  · simp [World.take]
  · intro i hi
    simp [World.take, hi]
  · intro i _
    rfl
  · intro key
    by_cases hkey : key = (j, p)
    · subst hkey
      simp [World.take, hrest]
    · simp [World.take, h.flight, hkey]
  · intro a b _ hab
    exact update_of_ne hab _ _
  · intro s u
    have hmeet := h.meets p j hbusy.1 hj (Ne.symm hjp) s u
    rw [hthread, hxs] at hmeet
    have hkey : (p, j) ≠ (j, p) := fun heq => hjp (Prod.ext_iff.mp heq).2
    rw [update_self, update_of_ne hkey]
    exact hmeet.recv_inv

/-- **A busy party makes a step.** -/
theorem step (hbusy : Busy n t p) (hmove : Moves p w w') :
    ∃ t' x', Forked n post k R t' x' y w' := by
  obtain ⟨q, hq, hview⟩ := h.view hbusy
  cases hview with
  | done hall => exact (h.not_all_done hbusy hall).elim
  | @send l peer m next hl =>
    obtain ⟨j, hj, hjp, hthread, hset⟩ := thread_at hl
    rw [hset] at hq
    cases hmove with
    | send hp' =>
      cases hq.symm.trans hp'
      exact ⟨_, h.send_step hbusy hj hjp hthread⟩
    | recv _ hp' _ _ => cases hq.symm.trans hp'
    | draw hp' => cases hq.symm.trans hp'
  | @draw l c next hl =>
    obtain ⟨j, hj, hjp, hthread, hset⟩ := thread_at hl
    simp only [hset] at hq
    cases hmove with
    | send hp' => cases hq.symm.trans hp'
    | recv _ hp' _ _ => cases hq.symm.trans hp'
    | draw hp' =>
      cases hq.symm.trans hp'
      exact ⟨_, _, h.draw_step hbusy hj hjp hthread _ (Tape.length_next _ _)⟩
  | @close l peer next hl =>
    obtain ⟨j, hj, hjp, hthread, -⟩ := thread_at hl
    exact (h.not_close hbusy.1 hj hjp hthread).elim
  | @recv peers next hsome hfrom hidle hall =>
    cases hmove with
    | send hp' => cases hq.symm.trans hp'
    | @recv _ _ j m rest l' hp' hj' hm =>
      cases hq.symm.trans hp'
      obtain ⟨l, ps, f, k', hl, hget, hnext⟩ := hfrom l'
      obtain ⟨j', hjn, hjp, hthread, hset⟩ := thread_at hl
      obtain rfl := h.waits_for hbusy.1 hjn hjp hthread
      have hk' : k' = ⟨0, Nat.zero_lt_one⟩ := Fin.ext (Nat.lt_one_iff.mp k'.isLt)
      subst hk'
      obtain rfl : j' = j := hget.trans hj'
      simp only [hnext, hset]
      exact ⟨_, h.recv_step hbusy hjn hjp hthread hm⟩
    | draw hp' => cases hq.symm.trans hp'

/-- A program with a step to make lets its party move, if not with this step then with
another. -/
theorem moves_of_ready (hp : p < n) (hj : j < n) (hjp : j ≠ p) (hready : (t p j).Ready (x (j, p))) :
    ∃ w', Moves p w w' := by
  have hbusy : Busy n t p := by
    refine ⟨hp, j, mem_others.mpr ⟨hj, hjp⟩, ?_⟩
    cases hthread : t p j with
    | done b => rw [hthread] at hready; exact hready.elim
    | send _ _ _ | recv _ _ | draw _ _ | close _ _ => rfl
  obtain ⟨q, hq, hview⟩ := h.view hbusy
  cases hview with
  | done hall => exact (h.not_all_done hbusy hall).elim
  | send hl => exact ⟨_, .send hq⟩
  | draw hl => exact ⟨_, .draw hq⟩
  | close hl =>
    obtain ⟨j', hj', hjp', hthread, -⟩ := thread_at hl
    exact (h.not_close hp hj' hjp' hthread).elim
  | @recv peers next hsome hfrom hidle hall =>
    have hmem : t p j ∈ (others n p).map (t p) := mem_map_of_mem (mem_others.mpr ⟨hj, hjp⟩)
    rcases hidle _ hmem with ⟨b, hb⟩ | ⟨ps, f, hf⟩
    · rw [hb] at hready
      exact hready.elim
    · obtain rfl := h.waits_for hp hj hjp hf
      rw [hf] at hmem hready
      obtain ⟨l, hl⟩ := hall _ _ hmem ⟨0, Nat.zero_lt_one⟩
      obtain ⟨m, xs, hxs⟩ := exists_cons_of_ne_nil hready
      have hflight : w.flight (j, p) = m :: (xs ++ y (j, p)) := by
        rw [h.flight, hxs]
        rfl
      exact ⟨_, .recv l hq hl hflight⟩

/-- **Somebody can move** while a party is busy. -/
theorem live (hbusy : Busy n t p) : ∃ i w', i < n ∧ Moves i w w' := by
  obtain ⟨hp, j, hj, hlive⟩ := hbusy
  obtain ⟨hjn, hjp⟩ := mem_others.mp hj
  rcases (h.meets p j hp hjn (Ne.symm hjp) (w.tape p) (w.tape p)).ready with
    ⟨hdone, -⟩ | hready | hready
  · rw [hlive] at hdone
    cases hdone
  · obtain ⟨w', hmove⟩ := h.moves_of_ready hp hjn hjp hready
    exact ⟨p, w', hp, hmove⟩
  · obtain ⟨w', hmove⟩ := h.moves_of_ready hjn hp (Ne.symm hjp) hready
    exact ⟨j, w', hjn, hmove⟩

/-- A busy party is not done. -/
theorem not_done (hbusy : Busy n t p) (a : α) : w.program p ≠ .done a := by
  obtain ⟨q, hq, hview⟩ := h.view hbusy
  rw [hq]
  cases hview with
  | done hall => exact (h.not_all_done hbusy hall).elim
  | send _ | draw _ | close _ | recv _ _ _ _ => simp

/-- A busy party is not abandoned. -/
theorem not_abandoned (hbusy : Busy n t p) : ¬ Abandoned n w p := by
  rintro ⟨peers, next, l, hp, hempty, hgone⟩
  obtain ⟨q, hq, hview⟩ := h.view hbusy
  cases hview with
  | done hall => exact (h.not_all_done hbusy hall).elim
  | send _ | draw _ | close _ => cases hq.symm.trans hp
  | @recv peers' next' hsome hfrom hidle hall =>
    cases hq.symm.trans hp
    obtain ⟨l', ps, f, k', hl, hget, -⟩ := hfrom l
    obtain ⟨j, hj, hjp, hthread, -⟩ := thread_at hl
    obtain rfl := h.waits_for hbusy.1 hj hjp hthread
    have hk' : k' = ⟨0, Nat.zero_lt_one⟩ := Fin.ext (Nat.lt_one_iff.mp k'.isLt)
    subst hk'
    have hpeer : peers.get l = j := hget.symm
    rw [hpeer] at hempty hgone
    rw [h.flight] at hempty
    have hbusy' := h.busy_of_waiting hbusy.1 hj hjp hthread (append_eq_nil_iff.mp hempty).1
    rcases hgone with hout | ⟨a, ha⟩
    · omega
    · exact h.not_done hbusy' a ha

/-- There are results for all programs. -/
theorem exists_results [Nonempty β] :
    ∃ r : Nat → Nat → β, (∀ i j, i < n → j < n → i ≠ j → R i j (r i j) (r j i)) ∧
      ∀ i j b, i < n → j < n → i ≠ j → t i j = .done b → r i j = b := by
  have hpair : ∀ i j, ∃ ab : β × β, i < n → j < n → i < j → R i j ab.1 ab.2 ∧
      (∀ a, t i j = .done a → ab.1 = a) ∧ ∀ b, t j i = .done b → ab.2 = b := by
    intro i j
    by_cases hij : i < n ∧ j < n ∧ i < j
    · obtain ⟨hi, hj, hlt⟩ := hij
      obtain ⟨a, b, -, -, hR, ha, hb⟩ :=
        (h.meets i j hi hj (Nat.ne_of_lt hlt) (w.tape i) (w.tape j)).exists_results
      exact ⟨(a, b), fun _ _ _ => ⟨hR, ha, hb⟩⟩
    · obtain ⟨b⟩ := ‹Nonempty β›
      exact ⟨(b, b), fun hi hj hlt => (hij ⟨hi, hj, hlt⟩).elim⟩
  choose f hf using hpair
  refine ⟨fun i j => if i < j then (f i j).1 else (f j i).2, ?_, ?_⟩
  · intro i j hi hj hij
    rcases Nat.lt_or_gt_of_ne hij with hlt | hgt
    · simp only [hlt, Nat.not_lt_of_lt hlt, if_true, if_false]
      exact (hf i j hi hj hlt).1
    · simp only [hgt, Nat.not_lt_of_lt hgt, if_true, if_false]
      exact h.symm _ _ _ _ (hf j i hj hi hgt).1
  · intro i j b hi hj hij hb
    rcases Nat.lt_or_gt_of_ne hij with hlt | hgt
    · simp only [hlt, if_true]
      exact (hf i j hi hj hlt).2.1 b hb
    · simp only [Nat.not_lt_of_lt hgt, if_false]
      exact (hf j i hj hi hgt).2.2 b hb

/-- A party that is through is not abandoned. -/
theorem not_abandoned_ahead [Nonempty β] (hp : p < n) (hbusy : ¬ Busy n t p) :
    ¬ Abandoned n w p := by
  rintro ⟨peers, next, l, hprogram, hempty, hgone⟩
  obtain ⟨r, hr, hdone⟩ := h.exists_results
  have hv := h.rest r hr hdone w.tape fun _ _ => rfl
  cases hv with
  | finished a hdone' hpost =>
    have hdone_p := hdone' p hp
    simp only [hbusy, if_false] at hdone_p
    cases hprogram.symm.trans hdone_p
  | running hlive hwait hnext =>
    refine hwait p hp ⟨peers, next, l, ?_, ?_, ?_⟩
    · simp only [hbusy, if_false]
      exact hprogram
    · rw [h.flight] at hempty
      exact (append_eq_nil_iff.mp hempty).2
    · refine hgone.imp_right ?_
      rintro ⟨a, ha⟩
      have hbusy' : ¬ Busy n t (peers.get l) := fun hb => h.not_done hb a ha
      exact ⟨a, by simp only [hbusy', if_false]; exact ha⟩

/-- Once all parties are through, the run is the one that goes on from the results. -/
theorem settles_of_through [Nonempty β] (hthrough : ∀ i, ¬ Busy n t i) : Settles n post w := by
  obtain ⟨r, hr, hdone⟩ := h.exists_results
  have hv := h.rest r hr hdone w.tape fun _ _ => rfl
  have hsame : w = ⟨w.program, y, w.tape⟩ := by
    ext1
    · rfl
    · funext ⟨a, b⟩
      rw [h.flight, h.flight_to_ahead (hthrough b), nil_append]
    · rfl
  rw [hsame]
  simpa only [hthrough, if_false] using hv

end Forked

/-- A step of one party is a step of the list of all programs. -/
theorem Moves.advance {w' : World α} (h : Moves i w w') (hi : i < n) :
    Protocol.Advance ((range n).map w'.program) ((range n).map w.program) := by
  have hchild : (w'.program i).Child (w.program i) := by
    cases h with
    | send hp => simp only [hp, World.post, update_self]; exact .send
    | recv l hp hj hm => simp only [hp, World.take, update_self]; exact .recv l _
    | draw hp => simp only [hp, World.drawn, update_self]; exact .draw _
  have hlist : ∀ l : List Nat, l.Nodup → i ∈ l →
      Protocol.Advance (l.map w'.program) (l.map w.program) := by
    intro l
    induction l with
    | nil => intro _ hmem; cases hmem
    | cons a l ih =>
      intro hl hmem
      obtain ⟨hal, hl⟩ := nodup_cons.mp hl
      rcases mem_cons.mp hmem with rfl | hmem
      · have hrest : l.map w'.program = l.map w.program := by
          apply map_congr_left
          intro b hb
          exact h.program_other fun hbi => hal (hbi ▸ hb)
        rw [map_cons, map_cons, hrest]
        exact .head hchild
      · have hai : a ≠ i := fun hai => hal (hai ▸ hmem)
        rw [map_cons, map_cons, h.program_other hai]
        exact .tail (ih hl hmem)
  exact hlist _ nodup_range (mem_range.mpr hi)

/-- **Parties that fork and join.**  The invariant carries every run to the point where
all parties have their results. -/
theorem Forked.settles [Nonempty β] {x y : Nat × Nat → List Bytes} (h : Forked n post k R t x y w) :
    Settles n post w := by
  generalize hps : (range n).map w.program = ps
  induction ps using Protocol.wellFounded_advance.induction generalizing t x y w with
  | _ ps ih =>
    subst hps
    by_cases hthrough : ∀ i, ¬ Busy n t i
    · exact h.settles_of_through hthrough
    · obtain ⟨p, hp⟩ := not_forall.mp hthrough
      refine .running (h.live (not_not.mp hp)) ?_ ?_
      · intro i hi
        by_cases hbusy : Busy n t i
        · exact h.not_abandoned hbusy
        · exact h.not_abandoned_ahead hi hbusy
      · intro i w' hi hmove
        by_cases hbusy : Busy n t i
        · obtain ⟨t', x', h'⟩ := h.step hbusy hmove
          exact ih _ (hmove.advance hi) h' rfl
        · obtain ⟨y', h'⟩ := h.ahead hi hbusy hmove
          exact ih _ (hmove.advance hi) h' rfl

/-- **Talking to all peers at once.**  If the programs of every two parties for each
other meet, and the run settles from the joined results whatever these are, then it
settles from the fork. -/
theorem Settles.of_fork [Nonempty β] (hflight : ∀ key, w.flight key = [])
    (hprogram : ∀ i < n, w.program i = (parallel ((others n i).map (t i))).bind (k i))
    (hmeets : ∀ i j, i < j → j < n → ∀ s u,
      Meets i j (fun a b _ _ => R i j a b) (t i j) (t j i) [] [] s u)
    (hrest : ∀ r : Nat → Nat → β, (∀ i j, i < j → j < n → R i j (r i j) (r j i)) →
      ∀ w' : World α, (∀ i < n, w'.program i = k i ((others n i).map (r i))) →
      (∀ key, w'.flight key = []) → Settles n post w') :
    Settles n post w := by
  have h : Forked n post k (fun i j a b => (i < j → R i j a b) ∧ (j < i → R j i b a)) t
      (fun _ => []) (fun _ => []) w := by
    refine ⟨fun i j a b hR => ⟨hR.2, hR.1⟩, fun i hi => hprogram i hi.1, hflight,
      fun _ _ _ => rfl, fun _ _ hne => (hne rfl).elim, ?_, ?_⟩
    · intro i j hi hj hij s u
      rcases Nat.lt_or_gt_of_ne hij with hlt | hgt
      · exact (hmeets i j hlt hj s u).mono fun _ _ _ _ hR =>
          ⟨fun _ => hR, fun hgt => (Nat.lt_asymm hlt hgt).elim⟩
      · exact (hmeets j i hgt hi u s).symm.mono fun _ _ _ _ hR =>
          ⟨fun hlt => (Nat.lt_asymm hlt hgt).elim, fun _ => hR⟩
    · intro r hr hdone tape htape
      apply hrest r
      · intro i j hij hj
        exact (hr i j (Nat.lt_trans hij hj) hj (Nat.ne_of_lt hij)).1 hij
      · intro i hi
        by_cases hbusy : Busy n t i
        · simp only [hbusy, if_true]
        · simp only [hbusy, if_false]
          rw [hprogram i hi, Forked.parallel_of_not_busy hi hbusy hdone]
          rfl
      · intro key
        rfl
  exact h.settles

end Beaver
