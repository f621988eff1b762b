import Beaver.Network
import Beaver.Proofs.Rounds

/-!
# What a network makes of the parties' programs

A network runs the parties in one fixed order.  It is mirrored by a world: the same
programs, the same messages on their way and the same randomness, and a link is closed
only by a party that is done.  Each step of the network is a move of the world
(`Mirrors.step`), and the network stops only where no party can move, so a world that
settles tells how the run on the network ends (`Mirrors.runFrom`).

Messages may be changed on their way.  For the parties this is as if their senders had
changed them, which is how a world sees it (`Protocol.altered`).
-/

namespace Beaver

open List
open Function (update)

variable {α β : Type}

namespace Protocol

/-- The program whose message number `k` to peer `j` is changed by `g j k`, after as many
messages to each peer as `c` says. -/
def altered (g : Nat → Nat → Bytes → Bytes) (c : Nat → Nat) : Protocol α → Protocol α
  | done a => done a
  | send j m next => send j (g j (c j) m) (altered g (update c j (c j + 1)) next)
  | recv peers next => recv peers fun k m => altered g c (next k m)
  | draw n next => draw n fun bs => altered g c (next bs)
  | close j next => close j (altered g c next)

variable {g : Nat → Nat → Bytes → Bytes}

/-- A program none of whose messages is changed from now on. -/
theorem altered_eq_self (p : Protocol α) (c : Nat → Nat) (h : ∀ j k m, c j ≤ k → g j k m = m) :
    altered g c p = p := by
  induction p generalizing c with
  | done a => rfl
  | send j m next ih =>
    have hnext : ∀ j' k m, update c j (c j + 1) j' ≤ k → g j' k m = m := by
      intro j' k m hk
      apply h j' k m
      by_cases hj : j' = j
      · subst hj
        rw [Function.update_self] at hk
        omega
      · rwa [Function.update_of_ne hj] at hk
    rw [altered, h j (c j) m (Nat.le_refl _), ih _ hnext]
  | recv peers next ih => simp only [altered, ih _ _ c h]
  | draw n next ih => simp only [altered, ih _ c h]
  | close j next ih => rw [altered, ih c h]

section First

variable {f : Bytes → Bytes} (change : Nat → Nat → Nat → Bytes → Bytes)
  (h : ∀ i j k m, change i j k m = if i = 0 ∧ j = 1 ∧ k = 0 then f m else m)
include h

/-- Only messages from party 0 are changed. -/
theorem altered_other (p : Protocol α) (c : Nat → Nat) : p.altered (change 1) c = p :=
  altered_eq_self p c fun _ _ _ _ => (h ..).trans (if_neg (by simp))

/-- Only the first message to party 1 is changed. -/
theorem altered_send (m : Bytes) (p : Protocol α) :
    (send 1 m p).altered (change 0) (fun _ => 0) = send 1 (f m) p := by
  rw [altered, h, if_pos ⟨rfl, rfl, rfl⟩, altered_eq_self]
  intro j k m hk
  rw [h, if_neg]
  rintro ⟨-, rfl, rfl⟩
  simp at hk

end First

theorem altered_bind_done (p : Protocol α) (f : α → β) (c : Nat → Nat) :
    altered g c (p.bind fun a => done (f a)) = (altered g c p).bind fun a => done (f a) := by
  induction p generalizing c with
  | done a => rfl
  | send j m next ih => simp [altered, ih]
  | recv peers next ih => simp [altered, ih]
  | draw n next ih => simp [altered, ih]
  | close j next ih => simp [altered, ih]

theorem eq_done_of_altered {c : Nat → Nat} {p : Protocol α} {a : α} (h : p.altered g c = .done a) :
    p = .done a := by
  cases p with
  | done b => exact h
  | send _ _ _ | recv _ _ | draw _ _ | close _ _ => cases h

end Protocol

/-- Changes messages on their way, but loses none. -/
def Interference.altering (g : Nat → Nat → Nat → Bytes → Bytes) : Interference :=
  fun source target k m => some (g source target k m)

/-- Every message arrives as it was sent. -/
def Interference.honest : Interference := .altering fun _ _ _ m => m

/-- Coins that give nothing but zeros. -/
def Coins.zeros : Coins := ⟨fun _ n => replicate n 0, fun _ _ => length_replicate, 0⟩

/-- The draws that are left. -/
def Coins.tape (c : Coins) : Tape where
  bytes k n := c.draws (c.used + k) n
  length_bytes k n := c.length_draws (c.used + k) n

/-- The draws that are left to each party; those of nobody do not matter. -/
def Coins.tapes (coins : List Coins) (i : Nat) : Tape :=
  ((coins[i]?).map tape).getD ⟨fun _ n => replicate n 0, fun _ _ => length_replicate⟩

namespace Network

/-- A network between `n` parties. -/
structure Between (n : Nat) (net : Network) : Prop where
  rows : net.pipes.length = n
  columns : ∀ row ∈ net.pipes, row.length = n
  coins : net.coins.length = n

theorem between_ofCoins (coins : List Coins) : Between coins.length (ofCoins coins) where
  rows := length_replicate
  columns row hrow := by
    rw [eq_of_mem_replicate hrow, length_replicate]
  coins := rfl

variable {n i j a b : Nat} {net : Network}

theorem Between.exists_pipe (h : Between n net) (hi : i < n) (hj : j < n) :
    ∃ row, net.pipes[i]? = some row ∧ row[j]? = some (net.pipe i j) := by
  have hi' : i < net.pipes.length := h.rows ▸ hi
  have hj' : j < net.pipes[i].length := by
    rw [h.columns _ (getElem_mem hi')]
    exact hj
  refine ⟨net.pipes[i], getElem?_eq_getElem hi', ?_⟩
  rw [pipe, getElem?_eq_getElem hi', Option.bind_some, getElem?_eq_getElem hj']
  rfl

theorem Between.pipe_of_le (h : Between n net) (hi : n ≤ i) : net.pipe i j = ⟨[], [], true⟩ := by
  rw [pipe, getElem?_eq_none (h.rows ▸ hi)]
  rfl

/-- Changing the pipes of one party, and not their number. -/
theorem Between.modify (h : Between n net) {f : List Pipe → List Pipe}
    (hf : ∀ row, (f row).length = row.length) :
    Between n { net with pipes := net.pipes.modify a f } where
  rows := by rw [length_modify, h.rows]
  columns row hrow := by
    obtain ⟨k, hk⟩ := mem_iff_getElem?.mp hrow
    rw [getElem?_modify] at hk
    obtain ⟨row', hrow', rfl⟩ := Option.map_eq_some_iff.mp hk
    have hlength := h.columns row' (mem_of_getElem? hrow')
    split
    · rw [hf, hlength]
    · exact hlength
  coins := h.coins

theorem Between.modifyPipe (h : Between n net) (f : Pipe → Pipe) :
    Between n (net.modifyPipe a b f) :=
  h.modify fun _ => length_modify ..

theorem Between.pipe_modifyPipe (h : Between n net) (hi : i < n) (hj : j < n) (f : Pipe → Pipe) :
    (net.modifyPipe a b f).pipe i j
      = if (i, j) = (a, b) then f (net.pipe i j) else net.pipe i j := by
  obtain ⟨row, hrow, hpipe⟩ := h.exists_pipe hi hj
  rw [pipe, Network.modifyPipe, getElem?_modify, hrow]
  by_cases hia : a = i
  · subst hia
    by_cases hjb : b = j
    · subst hjb
      simp [hpipe]
    · simp [hjb, hpipe, Ne.symm hjb]
  · simp [hia, hpipe, Ne.symm hia]

theorem Between.shutAll (h : Between n net) : Between n (net.shutAll a) :=
  h.modify fun _ => length_map ..

theorem Between.pipe_shutAll (h : Between n net) (hi : i < n) (hj : j < n) :
    (net.shutAll a).pipe i j
      = if i = a then { net.pipe i j with closed := true } else net.pipe i j := by
  obtain ⟨row, hrow, hpipe⟩ := h.exists_pipe hi hj
  rw [pipe, Network.shutAll, getElem?_modify, hrow]
  by_cases hia : a = i
  · simp [hia, hpipe]
  · simp [hia, hpipe, Ne.symm hia]

variable {peers : List Nat} {net' : Network} {f : Interference}

theorem take?_of_answer? {l : Fin peers.length} {m : Option Bytes}
    (h : net.answer? i peers = some (l, m, net')) : net.take? (peers.get l) i = some (m, net') := by
  induction peers with
  | nil => cases h
  | cons peer peers ih =>
    rw [answer?] at h
    split at h
    · next m' net'' htake =>
        cases h
        exact htake
    · obtain ⟨⟨l', m', net''⟩, hrest, hl⟩ := Option.map_eq_some_iff.mp h
      cases hl
      exact ih hrest

theorem take?_of_answer?_eq_none (h : net.answer? i peers = none) (l : Fin peers.length) :
    net.take? (peers.get l) i = none := by
  induction peers with
  | nil => exact l.elim0
  | cons peer peers ih =>
    rw [answer?] at h
    split at h
    · cases h
    · next htake =>
        cases l using Fin.cases with
        | zero => exact htake
        | succ l => exact ih (Option.map_eq_none_iff.mp h) l

/-- A step of the first party that can move is a step of that party, which leaves if it
is done then. -/
theorem step?_of_stepAny? {me : Nat} {ps qs : List (Protocol α)} {hqs : Protocol.Advance qs ps}
    (h : stepAny? f me net ps = some (⟨qs, hqs⟩, net')) :
    ∃ l p q, ∃ hq : q.Child p, ∃ net'', ps[l]? = some p ∧
      net.step? f (me + l) p = some (⟨q, hq⟩, net'') ∧ qs = ps.set l q ∧
      net' = if q.isDone then net''.shutAll (me + l) else net'' := by
  induction ps generalizing me qs with
  | nil => cases h
  | cons p ps ih =>
    rw [stepAny?] at h
    split at h
    · next q hq net'' hstep =>
        cases h
        exact ⟨0, p, q, hq, net'', rfl, hstep, rfl, rfl⟩
    · obtain ⟨⟨⟨qs', hqs'⟩, net''⟩, hrest, hcons⟩ := Option.map_eq_some_iff.mp h
      cases hcons
      obtain ⟨l, p', q, hq, net'', hl, hstep, rfl, rfl⟩ := ih hrest
      have hshift : me + 1 + l = me + (l + 1) := by omega
      rw [hshift] at hstep ⊢
      exact ⟨l + 1, p', q, hq, net'', hl, hstep, rfl, rfl⟩

theorem step?_of_stepAny?_eq_none {me : Nat} {ps : List (Protocol α)}
    (h : stepAny? f me net ps = none) {l : Nat} {p : Protocol α} (hl : ps[l]? = some p) :
    net.step? f (me + l) p = none := by
  induction ps generalizing me l with
  | nil => cases hl
  | cons p' ps ih =>
    rw [stepAny?] at h
    split at h
    · cases h
    · next hstep =>
        cases l with
        | zero =>
          cases hl
          exact hstep
        | succ l =>
          have hshift : me + (l + 1) = me + 1 + l := by omega
          rw [hshift]
          exact ih (Option.map_eq_none_iff.mp h) hl

end Network

/-- A world that looks like a network on which the programs `ps` run, with the messages
changed by `g`. -/
structure Mirrors (n : Nat) (g : Nat → Nat → Nat → Bytes → Bytes) (ps : List (Protocol α))
    (net : Network) (w : World α) : Prop where
  length : ps.length = n
  between : net.Between n
  program : ∀ i p, ps[i]? = some p → ∃ c : Nat → Nat,
    (∀ j < n, c j = (net.pipe i j).sent.length) ∧ w.program i = p.altered (g i) c
  flight : ∀ i j, i < n → j < n → w.flight (i, j) = (net.pipe i j).inFlight
  outside : ∀ i j, n ≤ i → w.flight (i, j) = []
  closed : ∀ i j, i < n → j < n → (net.pipe i j).closed = true → ∃ a, ps[i]? = some (.done a)
  tape : ∀ i c, net.coins[i]? = some c → ∀ k m, (w.tape i).bytes k m = c.draws (c.used + k) m

namespace Mirrors

variable {n i : Nat} {g : Nat → Nat → Nat → Bytes → Bytes} {ps : List (Protocol α)}
variable {net net' : Network} {w : World α}
variable {p q : Protocol α}

theorem lt (h : Mirrors n g ps net w) (hp : ps[i]? = some p) : i < n :=
  h.length ▸ (List.getElem?_eq_some_iff.mp hp).1

/-- A party that is done leaves. -/
theorem shutAll (h : Mirrors n g ps net w) {a : α} (hdone : ps[i]? = some (.done a)) :
    Mirrors n g ps (net.shutAll i) w where
  length := h.length
  between := h.between.shutAll
  program k p hp := by
    obtain ⟨c, hc, hprogram⟩ := h.program k p hp
    refine ⟨c, fun j hj => ?_, hprogram⟩
    rw [hc j hj, h.between.pipe_shutAll (h.lt hp) hj]
    split <;> rfl
  flight k j hk hj := by
    rw [h.flight k j hk hj, h.between.pipe_shutAll hk hj]
    split <;> rfl
  outside := h.outside
  closed k j hk hj hclosed := by
    rw [h.between.pipe_shutAll hk hj] at hclosed
    by_cases hki : k = i
    · exact ⟨a, hki ▸ hdone⟩
    · rw [if_neg hki] at hclosed
      exact h.closed k j hk hj hclosed
  tape := h.tape

/-- What has to be seen of a step of party `i`; nothing else changes. -/
theorem advance (h : Mirrors n g ps net w) {w' : World α} (hp : ps[i]? = some p)
    (hlive : p.isDone = false) (hmove : Moves i w w') (hbetween : net'.Between n)
    (hprogram : ∃ c : Nat → Nat, (∀ j < n, c j = (net'.pipe i j).sent.length) ∧
      w'.program i = q.altered (g i) c)
    (hsent : ∀ k j, k < n → j < n → k ≠ i → (net'.pipe k j).sent = (net.pipe k j).sent)
    (hclosed : ∀ k j, k < n → j < n → (net'.pipe k j).closed = (net.pipe k j).closed)
    (hflight : ∀ k j, k < n → j < n → w'.flight (k, j) = (net'.pipe k j).inFlight)
    (htape : ∀ k c, net'.coins[k]? = some c →
      ∀ l m, (w'.tape k).bytes l m = c.draws (c.used + l) m) :
    Mirrors n g (ps.set i q) net' w' where
  length := by rw [length_set, h.length]
  between := hbetween
  program k p' hk := by
    by_cases hki : k = i
    · subst hki
      rw [getElem?_set_self (h.length ▸ h.lt hp)] at hk
      cases hk
      exact hprogram
    · rw [getElem?_set_ne (Ne.symm hki)] at hk
      obtain ⟨c, hc, hprogram'⟩ := h.program k p' hk
      refine ⟨c, fun j hj => ?_, (hmove.program_other hki).trans hprogram'⟩
      rw [hc j hj, hsent k j (h.lt hk) hj hki]
  flight := hflight
  outside a b ha := by
    have hai : a ≠ i := by
      rintro rfl
      exact Nat.not_lt_of_le ha (h.lt hp)
    obtain ⟨e, rfl, -, -⟩ := hmove.as_turn
    simp [World.turn, h.outside a b ha, hai]
  closed k j hk hj hshut := by
    rw [hclosed k j hk hj] at hshut
    obtain ⟨a, ha⟩ := h.closed k j hk hj hshut
    have hki : i ≠ k := by
      rintro rfl
      cases hp.symm.trans ha
      cases hlive
    exact ⟨a, by rw [getElem?_set_ne hki, ha]⟩
  tape := htape

section Steps

variable (h : Mirrors n g ps net w)
include h

variable {m : Bytes} {peers : List Nat} {next : Fin peers.length → Option Bytes → Protocol α}
variable {l : Fin peers.length}

theorem send_step {j : Nat} {next : Protocol α} (hp : ps[i]? = some (.send j m next)) :
    ∃ w', Moves i w w' ∧ Mirrors n g (ps.set i next) (net.post (.altering g) i j m) w' := by
  have hi : i < n := h.lt hp
  obtain ⟨c, hc, hprogram⟩ := h.program i _ hp
  have hpipe : ∀ a b, a < n → b < n → (net.post (.altering g) i j m).pipe a b
      = if (a, b) = (i, j) then ⟨(net.pipe a b).inFlight ++ [g i j (net.pipe a b).sent.length m],
          m :: (net.pipe a b).sent, (net.pipe a b).closed⟩ else net.pipe a b := by
    intro a b ha hb
    rw [Network.post, h.between.pipe_modifyPipe ha hb]
    rfl
  refine ⟨_, .send hprogram, h.advance hp rfl (.send hprogram) (h.between.modifyPipe _)
    ⟨update c j (c j + 1), ?_, ?_⟩ ?_ ?_ ?_ h.tape⟩
  · intro b hb
    rw [hpipe i b hi hb]
    by_cases hbj : b = j
    · subst hbj
      simp [hc b hb]
    · simp [hbj, hc b hb]
  · simp [World.post]
  · intro a b ha hb hai
    rw [hpipe a b ha hb]
    simp [hai]
  · intro a b ha hb
    rw [hpipe a b ha hb]
    split <;> rfl
  · intro a b ha hb
    rw [hpipe a b ha hb]
    by_cases hkey : (a, b) = (i, j)
    · obtain ⟨rfl, rfl⟩ := Prod.ext_iff.mp hkey
      simp [World.post, h.flight a b ha hb, hc b hb]
    · simp [World.post, hkey, h.flight a b ha hb]

theorem draw_step {m : Nat} {next : Bytes → Protocol α} (hp : ps[i]? = some (.draw m next)) :
    ∃ w', Moves i w w' ∧
      Mirrors n g (ps.set i (next (net.drawFor i m).1)) (net.drawFor i m).2 w' := by
  obtain ⟨c, hc, hprogram⟩ := h.program i _ hp
  have hcoins : i < net.coins.length := h.between.coins ▸ h.lt hp
  have hget : net.coins[i]? = some net.coins[i] := getElem?_eq_getElem hcoins
  have htape := h.tape i _ hget
  have hdraw : net.drawFor i m = (net.coins[i].draws net.coins[i].used m,
      { net with coins := net.coins.set i { net.coins[i] with used := net.coins[i].used + 1 } }) := by
    rw [Network.drawFor, hget]
    rfl
  have hbytes : (w.tape i).next m = (net.drawFor i m).1 := by
    rw [hdraw]
    exact htape 0 m
  refine ⟨_, .draw hprogram, h.advance hp rfl (.draw hprogram) ?_ ⟨c, ?_, ?_⟩ ?_ ?_ ?_ ?_⟩
  · rw [hdraw]
    exact ⟨h.between.rows, h.between.columns, by rw [length_set, h.between.coins]⟩
  · rw [hdraw]
    exact hc
  · simp [World.drawn, hbytes]
  · rw [hdraw]
    exact fun _ _ _ _ _ => rfl
  · rw [hdraw]
    exact fun _ _ _ _ => rfl
  · rw [hdraw]
    exact h.flight
  · intro k c' hk l b
    rw [hdraw] at hk
    by_cases hki : k = i
    · subst hki
      rw [getElem?_set_self hcoins] at hk
      cases hk
      have hlater := htape (l + 1) b
      simp only [World.drawn, Function.update_self, Tape.tail]
      rw [hlater]
      congr 1
      omega
    · rw [getElem?_set_ne (Ne.symm hki)] at hk
      simp only [World.drawn, Function.update_of_ne hki]
      exact h.tape k c' hk l b

theorem take_step (hp : ps[i]? = some (.recv peers next)) {rest : List Bytes}
    (hm : (net.pipe (peers.get l) i).inFlight = m :: rest) :
    ∃ w', Moves i w w' ∧ Mirrors n g (ps.set i (next l (some m)))
      (net.modifyPipe (peers.get l) i ({ · with inFlight := rest })) w' := by
  have hi : i < n := h.lt hp
  obtain ⟨c, hc, hprogram⟩ := h.program i _ hp
  have hl : peers.get l < n := by
    by_contra hout
    rw [h.between.pipe_of_le (Nat.le_of_not_lt hout)] at hm
    cases hm
  have hflight : w.flight (peers.get l, i) = m :: rest := (h.flight _ i hl hi).trans hm
  refine ⟨_, .recv l hprogram rfl hflight, h.advance hp rfl (.recv l hprogram rfl hflight)
    (h.between.modifyPipe _) ⟨c, ?_, ?_⟩ ?_ ?_ ?_ h.tape⟩
  · intro b hb
    rw [hc b hb, h.between.pipe_modifyPipe hi hb]
    split <;> rfl
  · simp [World.take]
  · intro a b ha hb _
    rw [h.between.pipe_modifyPipe ha hb]
    split <;> rfl
  · intro a b ha hb
    rw [h.between.pipe_modifyPipe ha hb]
    split <;> rfl
  · intro a b ha hb
    rw [h.between.pipe_modifyPipe ha hb]
    by_cases hkey : (a, b) = (peers.get l, i)
    · rw [if_pos hkey, hkey]
      simp [World.take]
    · rw [if_neg hkey, ← h.flight a b ha hb]
      exact Function.update_of_ne hkey _ _

/-- Nobody takes the end of a link for a message unless the party is abandoned. -/
theorem abandoned (hp : ps[i]? = some (.recv peers next))
    (hnone : (net.pipe (peers.get l) i).inFlight = [])
    (hclosed : (net.pipe (peers.get l) i).closed = true) : Abandoned n w i := by
  have hi : i < n := h.lt hp
  obtain ⟨c, -, hprogram⟩ := h.program i _ hp
  refine ⟨peers, _, l, hprogram, ?_, ?_⟩
  · by_cases hl : peers.get l < n
    · rw [h.flight _ i hl hi, hnone]
    · exact h.outside _ i (Nat.le_of_not_lt hl)
  · by_cases hl : peers.get l < n
    · obtain ⟨a, ha⟩ := h.closed _ i hl hi hclosed
      obtain ⟨c', -, hdone⟩ := h.program _ _ ha
      exact .inr ⟨a, hdone⟩
    · exact .inl (Nat.le_of_not_lt hl)

/-- **A step of the network is a move of the world.** -/
theorem step {p q : Protocol α} {hq : q.Child p} (hp : ps[i]? = some p)
    (hwait : ¬ Abandoned n w i) (hopen : ∀ peer next, w.program i ≠ .close peer next)
    (hstep : net.step? (.altering g) i p = some (⟨q, hq⟩, net')) :
    ∃ w', Moves i w w' ∧ Mirrors n g (ps.set i q) net' w' := by
  cases p with
  | done a => cases hstep
  | send j m next =>
    cases hstep
    exact h.send_step hp
  | draw m next =>
    cases hstep
    exact h.draw_step hp
  | close j next =>
    obtain ⟨c, -, hprogram⟩ := h.program i _ hp
    exact (hopen _ _ hprogram).elim
  | recv peers next =>
    obtain ⟨⟨l, m, net''⟩, hanswer, hnext⟩ := Option.map_eq_some_iff.mp hstep
    cases hnext
    have htake := Network.take?_of_answer? hanswer
    rw [Network.take?] at htake
    split at htake
    · next m' rest hm =>
        cases htake
        exact h.take_step hp hm
    · next hnone =>
        split at htake
        · next hclosed => exact (hwait (h.abandoned hp hnone hclosed)).elim
        · cases htake

/-- **Where the network stops, the party cannot move.** -/
theorem stuck {p : Protocol α} (hp : ps[i]? = some p)
    (hstep : net.step? (.altering g) i p = none) (w' : World α) : ¬ Moves i w w' := by
  intro hmove
  have hi : i < n := h.lt hp
  obtain ⟨c, -, hprogram⟩ := h.program i _ hp
  cases p with
  | done a => exact hmove.not_done a hprogram
  | send j m next => cases hstep
  | draw m next => cases hstep
  | close j next => cases hstep
  | recv peers next =>
    have hnone := Network.take?_of_answer?_eq_none (Option.map_eq_none_iff.mp hstep)
    cases hmove with
    | send hp' => cases hprogram.symm.trans hp'
    | draw hp' => cases hprogram.symm.trans hp'
    | recv l hp' hj hm =>
      cases hprogram.symm.trans hp'
      have htake := hnone l
      rw [hj] at htake
      by_cases hl : peers.get l < n
      · rw [hj] at hl
        rw [h.flight _ i hl hi] at hm
        rw [Network.take?, hm] at htake
        cases htake
      · rw [hj] at hl
        rw [h.outside _ i (Nat.le_of_not_lt hl)] at hm
        cases hm

end Steps

/-- **How the run on the network ends.**  If the world settles, the network runs all
parties to their ends. -/
theorem runFrom {post : Outcome α} (hsettles : Settles n post w) (h : Mirrors n g ps net w) :
    ∃ (a : Nat → α) (w' : World α),
      (∀ i < n, (Network.runFrom (.altering g) net ps).1[i]? = some (.done (a i))) ∧
      Mirrors n g (Network.runFrom (.altering g) net ps).1
        (Network.runFrom (.altering g) net ps).2 w' ∧ post a w'.flight w'.tape := by
  induction hsettles generalizing ps net with
  | @finished w a hdone hpost =>
    have hps : ∀ i < n, ps[i]? = some (.done (a i)) := by
      intro i hi
      have hget := getElem?_eq_getElem (l := ps) (i := i) (h.length ▸ hi)
      obtain ⟨c, -, hprogram⟩ := h.program i _ hget
      rw [hget, Protocol.eq_done_of_altered (hprogram.symm.trans (hdone i hi))]
    have hstop : Network.stepAny? (.altering g) 0 net ps = none := by
      rw [Option.eq_none_iff_forall_not_mem]
      rintro ⟨⟨qs, hqs⟩, net'⟩ hstep
      obtain ⟨l, p, q, hq, net'', hl, hstep', -, -⟩ := Network.step?_of_stepAny? hstep
      cases hl.symm.trans (hps l (h.lt hl))
      cases hstep'
    rw [Network.runFrom, hstop]
    exact ⟨a, w, hps, h, hpost⟩
  | @running w hlive hwait hnext ih =>
    cases hstep : Network.stepAny? (.altering g) 0 net ps with
    | none =>
      obtain ⟨i, w', hi, hmove⟩ := hlive
      have hget := getElem?_eq_getElem (l := ps) (i := i) (h.length ▸ hi)
      have hnone := Network.step?_of_stepAny?_eq_none hstep hget
      rw [Nat.zero_add] at hnone
      exact (h.stuck hget hnone w' hmove).elim
    | some result =>
      obtain ⟨⟨qs, hqs⟩, net'⟩ := result
      obtain ⟨l, p, q, hq, net'', hl, hstep', rfl, rfl⟩ := Network.step?_of_stepAny? hstep
      rw [Nat.zero_add] at hstep'
      have hopen : ∀ peer next, w.program l ≠ .close peer next :=
        (Settles.running hlive hwait hnext).not_close (h.lt hl)
      obtain ⟨w', hmove, h'⟩ := h.step hl (hwait l (h.lt hl)) hopen hstep'
      have hleft : Mirrors n g (ps.set l q)
          (if q.isDone then net''.shutAll (0 + l) else net'') w' := by
        cases hdone : q.isDone with
        | false => exact h'
        | true =>
          rw [Nat.zero_add]
          cases q with
          | done a =>
            exact h'.shutAll (getElem?_set_self (h.length ▸ h.lt hl))
          | send _ _ _ | recv _ _ | draw _ _ | close _ _ => cases hdone
      rw [Network.runFrom, hstep]
      exact ih l w' (h.lt hl) hmove hleft

end Mirrors

namespace Network

/-- The world at the beginning of a run. -/
def world (g : Nat → Nat → Nat → Bytes → Bytes) (coins : List Coins) (ps : List (Protocol α))
    (p : Protocol α) (s : Tape) : World α where
  program i := ((ps[i]?).getD p).altered (g i) fun _ => 0
  flight _ := []
  tape i := ((coins[i]?).map Coins.tape).getD s

variable {coins : List Coins} {ps : List (Protocol α)} {g : Nat → Nat → Nat → Bytes → Bytes}
variable {c d : Coins} {p : Protocol α} {q : Protocol β} {R : α → β → Tape → Tape → Prop}

theorem pipe_ofCoins {i j : Nat} (hi : i < coins.length) (hj : j < coins.length) :
    (ofCoins coins).pipe i j = ⟨[], [], false⟩ := by
  simp [pipe, ofCoins, hi, hj]

theorem mirrors_world (g : Nat → Nat → Nat → Bytes → Bytes) (hlength : ps.length = coins.length)
    (p : Protocol α) (s : Tape) :
    Mirrors coins.length g ps (ofCoins coins) (world g coins ps p s) where
  length := hlength
  between := between_ofCoins coins
  program i q hq := by
    have hi : i < coins.length := hlength ▸ (List.getElem?_eq_some_iff.mp hq).1
    refine ⟨fun _ => 0, fun j hj => ?_, ?_⟩
    · rw [pipe_ofCoins hi hj]
      rfl
    · simp only [world, hq, Option.getD_some]
  flight i j hi hj := by
    rw [pipe_ofCoins hi hj]
    rfl
  outside _ _ _ := rfl
  closed i j hi hj hclosed := by
    rw [pipe_ofCoins hi hj] at hclosed
    cases hclosed
  tape i c hc k m := by
    have hc' : coins[i]? = some c := hc
    simp only [world, hc', Option.map_some, Option.getD_some]
    rfl

/-- Closing the links of parties that are done changes nothing in the mirror. -/
theorem mirrors_leave {n : Nat} {net : Network} {w : World α} (h : Mirrors n g ps net w) :
    Mirrors n g ps (net.leave ps) w := by
  have hdone : ∀ q ∈ ps.zipIdx.filter (·.1.isDone), ∃ a, ps[q.2]? = some (.done a) := by
    rintro ⟨q, i⟩ hq
    obtain ⟨hmem, hq⟩ := mem_filter.mp hq
    have hget : ps[i]? = some q := mem_zipIdx_iff_getElem?.mp hmem
    cases q with
    | done a => exact ⟨a, hget⟩
    | send _ _ _ | recv _ _ | draw _ _ | close _ _ => cases hq
  rw [leave]
  generalize ps.zipIdx.filter (·.1.isDone) = l at hdone
  induction l generalizing net with
  | nil => exact h
  | cons q l ih =>
    obtain ⟨a, ha⟩ := hdone q mem_cons_self
    exact ih (h.shutAll ha) fun q hq => hdone q (mem_cons_of_mem _ hq)

/-- **Parties on a network of their own.**  If the world they make up settles, all of them
come to an end on the network. -/
theorem runOn_of_settles (hlength : ps.length = coins.length) (hsome : 0 < coins.length)
    {post : (Nat → α) → Prop}
    (h : ∀ w : World α, (∀ i p, ps[i]? = some p → w.program i = p) → (∀ key, w.flight key = []) →
      (∀ i c, coins[i]? = some c → w.tape i = c.tape) →
      Settles coins.length (fun a _ _ => post a) w) :
    ∃ a : Nat → α, post a ∧ ((ofCoins coins).runOn .honest ps).1
      = (range coins.length).map fun i => some (a i) := by
  obtain ⟨c, hc⟩ : ∃ c, coins[0]? = some c := ⟨_, getElem?_eq_getElem hsome⟩
  obtain ⟨p, hp⟩ : ∃ p, ps[0]? = some p := ⟨_, getElem?_eq_getElem (hlength ▸ hsome)⟩
  have hworld : Settles coins.length (fun a _ _ => post a)
      (world (fun _ _ _ m => m) coins ps p c.tape) := by
    refine h _ ?_ (fun _ => rfl) ?_
    · intro i q hq
      simp only [world, hq, Option.getD_some]
      exact Protocol.altered_eq_self q _ fun _ _ _ _ => rfl
    · intro i c' hc'
      simp only [world, hc', Option.map_some, Option.getD_some]
  obtain ⟨a, w', hdone, hmirrors, hpost⟩ :=
    (mirrors_leave (mirrors_world _ hlength p c.tape)).runFrom hworld
  refine ⟨a, hpost, ?_⟩
  apply ext_getElem?
  intro i
  rw [runOn, getElem?_map, getElem?_map]
  by_cases hi : i < coins.length
  · have hrun := hdone i hi
    rw [Interference.honest, hrun, getElem?_range hi]
    rfl
  · have hrange : (range coins.length)[i]? = none := by simpa using hi
    have hrun : (runFrom .honest ((ofCoins coins).leave ps) ps).1[i]? = none := by
      apply getElem?_eq_none
      rw [Interference.honest, hmirrors.length]
      exact Nat.le_of_not_lt hi
    rw [hrange, hrun]
    rfl

/-- **Two parties on a network of their own.**  If their programs meet, both come to an
end on the network. -/
theorem runPair_of_meets
    (h : Meets 0 1 R (p.altered (g 0) fun _ => 0) (q.altered (g 1) fun _ => 0) [] []
      c.tape d.tape) :
    ∃ a b s u net, R a b s u ∧
      (ofCoins [c, d]).runPair (.altering g) p q = (some a, some b, net) := by
  let ps : List (Protocol (α ⊕ β)) := [Sum.inl <$> p, Sum.inr <$> q]
  let w := world g [c, d] ps (Sum.inl <$> p) c.tape
  have hw : Settles 2 (fun r _ tape => ∃ a b, r 0 = .inl a ∧ r 1 = .inr b ∧
      R a b (tape 0) (tape 1)) w := by
    have hpair : w.Pair 0 1 ((p.altered (g 0) fun _ => 0).bind fun a => .done (.inl a))
        ((q.altered (g 1) fun _ => 0).bind fun b => .done (.inr b)) [] [] c.tape d.tape :=
      ⟨Protocol.altered_bind_done p Sum.inl _, Protocol.altered_bind_done q Sum.inr _,
        rfl, rfl, rfl, rfl⟩
    refine Settles.of_meets (by omega) (by omega) (by omega) h hpair ?_
    rintro a b _ _ w' hR ⟨hp, hq, -, -, rfl, rfl⟩ -
    refine .finished (fun i => if i = 0 then .inl a else .inr b) ?_ ⟨a, b, rfl, rfl, hR⟩
    intro i hi
    obtain rfl | rfl : i = 0 ∨ i = 1 := by omega
    · exact hp
    · exact hq
  have hmirrors : Mirrors [c, d].length g ps (ofCoins [c, d]) w := mirrors_world g rfl _ _
  obtain ⟨r, w', hdone, hmirrors, a, b, ha, hb, hR⟩ := hmirrors.runFrom hw
  have hrun : (runFrom (.altering g) (ofCoins [c, d]) ps).1 = [.done (.inl a), .done (.inr b)] := by
    apply ext_getElem?
    intro i
    match i with
    | 0 => rw [hdone 0 (by decide), ha]; rfl
    | 1 => rw [hdone 1 (by decide), hb]; rfl
    | i + 2 =>
      rw [getElem?_eq_none (by rw [hmirrors.length]; simp)]
      rfl
  refine ⟨a, b, w'.tape 0, w'.tape 1, (runFrom (.altering g) (ofCoins [c, d]) ps).2, hR, ?_⟩
  have hresult : runFrom (.altering g) (ofCoins [c, d]) [Sum.inl <$> p, Sum.inr <$> q]
      = ([.done (.inl a), .done (.inr b)], (runFrom (.altering g) (ofCoins [c, d]) ps).2) :=
    Prod.ext hrun rfl
  rw [runPair, hresult]
  rfl

/-- Two programs that meet come to an end on a network that changes nothing. -/
theorem runPair_honest (h : Meets 0 1 R p q [] [] c.tape d.tape) :
    ∃ a b s u net, R a b s u ∧ (ofCoins [c, d]).runPair .honest p q = (some a, some b, net) := by
  apply runPair_of_meets
  rw [Protocol.altered_eq_self _ _ fun _ _ _ _ => rfl,
    Protocol.altered_eq_self _ _ fun _ _ _ _ => rfl]
  exact h

end Network

end Beaver
