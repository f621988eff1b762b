import Beaver.Proofs.Exchange
import Beaver.Proofs.Rendezvous
import Beaver.Proofs.Rounds

/-!
# Calls in common over links that hold no messages

All parties go through their peers in ascending order, and of two parties the lower one
sends first.  Then the pairs can be served in lexicographic order, which brings a call to
its end at all parties (`Step.call`), and one call after the other brings all of them to
their end.  Since one run decides about all runs, no order of moves gets stuck.
-/

namespace Beaver

open List
open Function (update)
open Relation (ReflTransGen)

namespace Player

section Onward

variable {σ β : Type} {n m : Nat} {part : Nat → Session σ β}

/-- What is left of a round when its parts below `m` are over, with results `r`. -/
def onward (n : Nat) (part : Nat → Session σ β) (r : Nat → β) (m : Nat) : Session σ (List β) := do
  let rest ← (range' m (n - m)).mapM part
  pure ((range m).map r ++ rest)

theorem onward_zero (r : Nat → β) : onward n part r 0 = (range n).mapM part := by
  simp [onward, range_eq_range']

theorem onward_all (r : Nat → β) : onward n part r n = pure ((range n).map r) := by
  simp [onward]

/-- The next part. -/
theorem onward_of_lt (hm : m < n) (r : Nat → β) :
    onward n part r m = part m >>= fun y => onward n part (update r m y) (m + 1) := by
  have hrange : range' m (n - m) = m :: range' (m + 1) (n - (m + 1)) := by
    rw [show n - m = n - (m + 1) + 1 by omega]
    rfl
  have hfront : ∀ y, (range (m + 1)).map (update r m y) = (range m).map r ++ [y] := by
    intro y
    rw [range_succ, map_append, map_singleton, Function.update_self]
    congr 1
    refine map_congr_left fun k hk => ?_
    rw [Function.update_of_ne (Nat.ne_of_lt (mem_range.mp hk))]
  simp only [onward, hrange, mapM_cons, bind_assoc, pure_bind, hfront, append_assoc,
    singleton_append]

end Onward

variable {σ α β : Type} {phase : String} {w : Wire α}

/-- What a party does with party `k` in a round: it exchanges values with everybody but
itself. -/
def slot (p : Player) (phase : String) (w : Wire α) (give : Nat → α) (own : β) (take : α → β)
    (k : Nat) : Session σ β :=
  if k = p.me then pure own else take <$> (p.link k).exchange phase w (give k)

theorem gather_eq_slots (p : Player) (x : α) : (p.gather phase w x : Session σ (List α))
    = (range p.parties).mapM (p.slot phase w (fun _ => x) x id) := by
  have hpart : (fun k => if k = p.me then pure x else (p.link k).exchange phase w x)
      = (p.slot phase w (fun _ => x) x id : Nat → Session σ α) := by
    funext k
    simp [slot]
  rw [gather, hpart]

theorem scatter_eq_slots (p : Player) (give : Nat → α) :
    (p.scatter phase w ((range p.parties).map give) : Session σ (List (Option α)))
      = (range p.parties).mapM (p.slot phase w give none some) := by
  have hlength : checkLength p.parties ((range p.parties).map give).length = .ok () := by
    simp [checkLength]
  have hzip : ((range p.parties).map give).zipIdx
      = (range p.parties).map fun k => (give k, k) := by
    apply ext_getElem
    · simp
    · simp
  have hpart : (fun k => do
        if k = p.me then pure none
        else
          let theirs ← (p.link k).exchange phase w (give k)
          pure (some theirs))
      = (p.slot phase w give none some : Nat → Session σ (Option α)) := by
    funext k
    simp [slot]
  rw [scatter, hlength, hzip, mapM_map]
  exact congrArg (fun part => (range p.parties).mapM part) hpart

end Player

namespace Rendezvous

variable {ι : Type} {α : ι → Type} {n : Nat}

/-- All parties go on with programs. -/
def Caller.allRunning (n : Nat) (s : Nat → Caller α)
    (p : Nat → Protocol (Except Failure (Reply α) × Unit)) (i : Nat) : Caller α :=
  if i < n then (s i).running (p i) else s i

theorem Caller.allRunning_congr {s : Nat → Caller α}
    {p q : Nat → Protocol (Except Failure (Reply α) × Unit)} (h : ∀ i < n, p i = q i) :
    Caller.allRunning n s p = Caller.allRunning n s q := by
  funext i
  by_cases hi : i < n
  · simp [Caller.allRunning, hi, h i hi]
  · simp [Caller.allRunning, hi]

namespace Step

variable {γ : Type} {s : Nat → Caller α} {i j : Nat}
variable {w : Wire γ} {phase : String} {give : Nat → Nat → γ} {x : Nat → γ}

/-- One party hands a value over to another. -/
theorem handOver {l l' : LinkEnd} (hl : l.address = j) (hl' : l'.address = i) {c : γ}
    (hw : w.Carries c) {f : Unit → Session Unit (Reply α)} {g : γ → Session Unit (Reply α)}
    (hi : (s i).current = some ((l.send w c >>= f).start ()))
    (hj : (s j).current = some ((l'.recv phase w >>= g).start ())) :
    Step n s (update (update s i ((s i).running ((f ()).start ()))) j
      ((s j).running ((g c).start ()))) := by
  rw [LinkEnd.start_send_bind, hl] at hi
  rw [LinkEnd.start_recv_bind, hl'] at hj
  have hmove := Move.talk (n := n) hi hj
  rw [LinkEnd.got_encode hw] at hmove
  exact ⟨_, hmove⟩

/-- **Two parties exchange values.** -/
theorem exchange (hij : i < j) {c d : γ} (hc : w.Carries c) (hd : w.Carries d)
    {f g : γ → Session Unit (Reply α)}
    (hi : (s i).current = some (((Player.link ⟨i, n⟩ j).exchange phase w c >>= f).start ()))
    (hj : (s j).current = some (((Player.link ⟨j, n⟩ i).exchange phase w d >>= g).start ())) :
    ReflTransGen (Step n) s (update (update s i ((s i).running ((f d).start ()))) j
      ((s j).running ((g c).start ()))) := by
  have hne : i ≠ j := Nat.ne_of_lt hij
  have hlt : (Player.link ⟨i, n⟩ j).me < (Player.link ⟨i, n⟩ j).peer := hij
  have hge : ¬ (Player.link ⟨j, n⟩ i).me < (Player.link ⟨j, n⟩ i).peer := Nat.not_lt_of_lt hij
  rw [LinkEnd.exchange, if_pos hlt, bind_assoc] at hi
  rw [LinkEnd.exchange, if_neg hge] at hj
  simp only [bind_assoc, pure_bind] at hj
  -- the lower party hands its value over, then the higher one
  have hthere := handOver (n := n) (i := i) (j := j) rfl rfl hc hi hj
  set t := update (update s i ((s i).running
    (((Player.link ⟨i, n⟩ j).recv phase w >>= f).start ()))) j ((s j).running
    (((Player.link ⟨j, n⟩ i).send w d >>= fun _ => g c).start ())) with ht
  have hti : (t i).current = some (((Player.link ⟨i, n⟩ j).recv phase w >>= f).start ()) := by
    simp [ht, hne, Caller.running]
  have htj : (t j).current
      = some (((Player.link ⟨j, n⟩ i).send w d >>= fun _ => g c).start ()) := by
    simp [ht, Caller.running]
  have hback := handOver (n := n) (i := j) (j := i) rfl rfl hd htj hti
  have hafter : update (update t j ((t j).running ((g c).start ()))) i
      ((t i).running ((f d).start ()))
      = update (update s i ((s i).running ((f d).start ()))) j ((s j).running ((g c).start ())) := by
    funext a
    by_cases hai : a = i
    · subst hai
      simp [ht, hne, Caller.running]
    · by_cases haj : a = j
      · subst haj
        simp [ht, hai, Caller.running]
      · simp [ht, hai, haj]
  rw [hafter] at hback
  exact .head hthere (.single hback)

section Rounds

variable {Q : Nat → Nat → Protocol (Except Failure (Reply α) × Unit)}

/-- The state in which those below `i` are through and party `i` has talked to all
below `j`. -/
def stage (n : Nat) (s : Nat → Caller α) (Q : Nat → Nat → Protocol (Except Failure (Reply α) × Unit))
    (i j : Nat) : Nat → Caller α :=
  Caller.allRunning n s fun a => Q a (reached n i j a)

theorem stage_apply {a : Nat} (ha : a < n) :
    stage n s Q i j a = (s a).running (Q a (reached n i j a)) :=
  if_pos ha

section Pairs

variable (hpair : ∀ i j, i < j → j < n → ∀ s : Nat → Caller α, (s i).current = some (Q i j) →
  (s j).current = some (Q j i) → ReflTransGen (Step n) s
    (update (update s i ((s i).running (Q i (j + 1)))) j ((s j).running (Q j (i + 1)))))
include hpair

/-- The next two parties talk. -/
theorem stage_talk (hij : i < j) (hj : j < n) :
    ReflTransGen (Step n) (stage n s Q i j) (stage n s Q i (j + 1)) := by
  have hi : i < n := Nat.lt_trans hij hj
  have hsteps := hpair i j hij hj (stage n s Q i j)
    (by rw [stage_apply hi, reached_self, Caller.running])
    (by rw [stage_apply hj, reached_peer hij, Caller.running])
  have hafter : update (update (stage n s Q i j) i ((stage n s Q i j i).running (Q i (j + 1)))) j
      ((stage n s Q i j j).running (Q j (i + 1))) = stage n s Q i (j + 1) := by
    funext a
    by_cases haj : a = j
    · subst haj
      simp [stage_apply hj, reached_peer_succ hij, Caller.running]
    · rw [Function.update_of_ne haj]
      by_cases hai : a = i
      · subst hai
        simp [stage_apply hi, reached_self, Caller.running]
      · rw [Function.update_of_ne hai]
        simp only [stage, Caller.allRunning, reached_succ hai haj]
  rwa [hafter] at hsteps

/-- Party `i` talks to all above it up to `j`. -/
theorem stage_row (hij : i < j) (hj : j ≤ n) :
    ReflTransGen (Step n) (stage n s Q i (i + 1)) (stage n s Q i j) := by
  induction j, hij using Nat.le_induction with
  | base => exact .refl
  | succ j hij ih => exact (ih (by omega)).trans (stage_talk hpair hij hj)

variable (hskip : ∀ a < n, Q a a = Q a (a + 1))
include hskip

/-- The parties up to `i` talk to all above them. -/
theorem stage_rows (hi : i < n) :
    ReflTransGen (Step n) (stage n s Q 0 1) (stage n s Q i (i + 1)) := by
  induction i with
  | zero => exact .refl
  | succ i ih =>
    have hi' : i < n := by omega
    have hend := (ih hi').trans (stage_row hpair hi' (Nat.le_refl n))
    -- the next party begins where the one before has ended
    have hnext : stage n s Q i n = stage n s Q (i + 1) (i + 2) := by
      apply Caller.allRunning_congr
      intro a ha
      by_cases hself : a = i + 1
      · rw [hself, reached_next hi, reached_self, hskip _ hi]
      · rw [reached_row ha hself]
    rwa [hnext] at hend

/-- **All pairs talk, one after the other.** -/
theorem rounds (s : Nat → Caller α) :
    ReflTransGen (Step n) (Caller.allRunning n s (Q · 0)) (Caller.allRunning n s (Q · n)) := by
  cases n with
  | zero => exact .refl
  | succ m =>
    have hfirst : Caller.allRunning (m + 1) s (Q · 0) = stage (m + 1) s Q 0 1 := by
      apply Caller.allRunning_congr
      intro a ha
      by_cases hzero : a = 0
      · rw [hzero, reached_self, hskip 0 (Nat.succ_pos m)]
      · rw [reached_first hzero]
    have hlast : Caller.allRunning (m + 1) s (Q · (m + 1)) = stage (m + 1) s Q m (m + 1) :=
      Caller.allRunning_congr fun a ha => by rw [reached_last ha]
    rw [hfirst, hlast]
    exact stage_rows hpair hskip (Nat.lt_succ_self m)

end Pairs

end Rounds

/-- **A round.**  Everybody exchanges values with everybody else. -/
theorem slots {β : Type} (hw : ∀ i < n, ∀ k < n, w.Carries (give i k)) (phase : String)
    (own : Nat → β) (take : γ → β) (f : Nat → List β → Session Unit (Reply α))
    (s : Nat → Caller α) :
    ReflTransGen (Step n)
      (Caller.allRunning n s fun i => ((range n).mapM
        (Player.slot ⟨i, n⟩ phase w (give i) (own i) take) >>= f i).start ())
      (Caller.allRunning n s fun i => (f i ((range n).map fun k =>
        if k = i then own i else take (give k i))).start ()) := by
  -- the results that a party is going to have
  let r (i k : Nat) : β := if k = i then own i else take (give k i)
  let Q (i m : Nat) := (Player.onward n (Player.slot ⟨i, n⟩ phase w (give i) (own i) take) (r i) m
    >>= f i).start ()
  have hnext : ∀ i m, m < n → m ≠ i → Q i m = ((Player.link ⟨i, n⟩ m).exchange phase w (give i m)
      >>= fun y => Player.onward n (Player.slot ⟨i, n⟩ phase w (give i) (own i) take)
        (update (r i) m (take y)) (m + 1) >>= f i).start () := by
    intro i m hm hmi
    simp only [Q, Player.onward_of_lt hm, Player.slot, if_neg hmi, map_eq_pure_bind, bind_assoc,
      pure_bind]
  have hrounds := rounds (n := n) (Q := Q) ?_ ?_ s
  · simpa only [Q, Player.onward_zero, Player.onward_all, pure_bind] using hrounds
  · intro i j hij hj t hti htj
    have hi : i < n := Nat.lt_trans hij hj
    have hne : j ≠ i := Nat.ne_of_gt hij
    have hfrom_j : update (r i) j (take (give j i)) = r i := by simp [r, hne]
    have hfrom_i : update (r j) i (take (give i j)) = r j := by simp [r, Ne.symm hne]
    rw [hnext i j hj hne] at hti
    rw [hnext j i hi (Ne.symm hne)] at htj
    have hsteps := exchange hij (hw i hi j hj) (hw j hj i hi) hti htj
    simpa only [Q, hfrom_j, hfrom_i] using hsteps
  · intro i hi
    have hown : update (r i) i (own i) = r i := by simp [r]
    simp only [Q, Player.onward_of_lt hi (r i), Player.slot, if_true, pure_bind, hown]

/-- Everybody gathers the values of all. -/
theorem gather (hw : ∀ i < n, w.Carries (x i)) (phase : String)
    (f : Nat → List γ → Session Unit (Reply α)) (s : Nat → Caller α) :
    ReflTransGen (Step n)
      (Caller.allRunning n s fun i => (Player.gather ⟨i, n⟩ phase w (x i) >>= f i).start ())
      (Caller.allRunning n s fun i => (f i ((range n).map x)).start ()) := by
  have hcarries : ∀ i < n, ∀ k < n, w.Carries (x i) := fun i hi _ _ => hw i hi
  have hround := slots hcarries phase x id f s
  have hall : ∀ i, ((range n).map fun k => if k = i then x i else id (x k))
      = (range n).map x := by
    intro i
    refine map_congr_left fun k _ => ?_
    split <;> simp_all
  simpa only [Player.gather_eq_slots, hall] using hround

/-- Everybody gets what the others have addressed to it. -/
theorem scatter (hw : ∀ i < n, ∀ k < n, w.Carries (give i k)) (phase : String)
    (f : Nat → List (Option γ) → Session Unit (Reply α)) (s : Nat → Caller α) :
    ReflTransGen (Step n)
      (Caller.allRunning n s fun i =>
        (Player.scatter ⟨i, n⟩ phase w ((range n).map (give i)) >>= f i).start ())
      (Caller.allRunning n s fun i => (f i ((range n).map fun k =>
        if k = i then none else some (give k i))).start ()) := by
  have hround := slots hw phase (fun _ => none) some f s
  have hscatter : ∀ i, (Player.scatter ⟨i, n⟩ phase w ((range n).map (give i)) :
      Session Unit (List (Option γ))) = (range n).mapM
        (Player.slot ⟨i, n⟩ phase w (give i) none some) :=
    fun i => Player.scatter_eq_slots ⟨i, n⟩ (give i)
  simpa only [hscatter] using hround

/-- Everybody gathers the values of all and finds that the others have got the same. -/
theorem broadcast (hn : n < 2 ^ 64) (hw : ∀ i < n, w.Carries (x i)) (phase : String)
    (f : Nat → List γ → Session Unit (Reply α)) (s : Nat → Caller α) :
    ReflTransGen (Step n)
      (Caller.allRunning n s fun i => (Player.broadcast ⟨i, n⟩ phase w (x i) >>= f i).start ())
      (Caller.allRunning n s fun i => (f i ((range n).map x)).start ()) := by
  have hvalues := gather hw phase (fun i received => (do
    if n = 2 then pure received
    else
      let digests := received.map fun m => Digest.hash (w.encode m)
      let theirs ← Player.gather ⟨i, n⟩ (phase ++ " (verification)") (Wire.bytes 32).list digests
      if theirs.all (· == digests) then pure received
      else Session.fail (.cheat .broadcast)) >>= f i) s
  simp only [Player.broadcast, bind_assoc]
  refine hvalues.trans ?_
  by_cases htwo : n = 2
  · simp only [htwo, if_true, pure_bind]
    exact .refl
  · -- everybody sends the digests of the same values, so that all of them agree
    have hdigests : (Wire.bytes 32).list.Carries
        (((range n).map x).map fun m => Digest.hash (w.encode m)) := by
      refine .list (fun d hd => ?_) (by simpa using hn)
      obtain ⟨m, -, rfl⟩ := mem_map.mp hd
      exact Wire.carries_bytes (Digest.length_hash _)
    simp only [if_neg htwo, bind_assoc]
    refine (gather (fun _ _ => hdigests) _ _ s).trans ?_
    have hsame : ∀ d : List Bytes, ((range n).map fun _ => d).all (· == d) = true := by
      intro d
      simp
    simp only [hsame, if_true, pure_bind]
    exact .refl

/-- **A call gives every party what the others have addressed to it.** -/
theorem call_run (hn : n < 2 ^ 64) {c : Call α} (hc : c.Carried n) (s : Nat → Caller α) :
    ReflTransGen (Step n) (Caller.allRunning n s fun i => (c.run ⟨i, n⟩).start ())
      (Caller.allRunning n s fun i => .done (.ok (c.replyTo n i), ())) := by
  cases c with
  | scatter t phase w message => exact scatter hc phase (fun _ xs => pure ⟨t, xs⟩) s
  | gather t phase w message =>
    have hrun := gather hc phase (fun _ xs => pure (⟨t, xs.map some⟩ : Reply α)) s
    simp only [map_map] at hrun
    exact hrun
  | broadcast t phase w message =>
    have hrun := broadcast hn hc phase (fun _ xs => pure (⟨t, xs.map some⟩ : Reply α)) s
    simp only [map_map] at hrun
    exact hrun

/-- Everybody does something by itself. -/
theorem turns {t : Nat → Caller α} (h : ∀ i < n, (s i).turn n i = some (t i)) :
    ReflTransGen (Step n) s fun i => if i < n then t i else s i := by
  -- the parties below `m` have had their turn
  have hsome : ∀ m ≤ n, ReflTransGen (Step n) s fun i => if i < m then t i else s i := by
    intro m
    induction m with
    | zero => exact fun _ => .refl
    | succ m ih =>
      intro hm
      have hturn : Move n (fun i => if i < m then t i else s i) [m]
          (update (fun i => if i < m then t i else s i) m (t m)) :=
        .turn (by simpa using h m hm)
      have hafter : update (fun i => if i < m then t i else s i) m (t m)
          = fun i => if i < m + 1 then t i else s i := by
        funext a
        by_cases ha : a = m
        · simp [ha]
        · have hlt : a < m + 1 ↔ a < m := by omega
          simp [ha, hlt]
      rw [hafter] at hturn
      exact (ih (by omega)).tail ⟨_, hturn⟩
  exact hsome n (Nat.le_refl n)

end Step

/-- All parties have made the first calls and got the right replies. -/
def Caller.through (n : Nat) (made left : List (Call α)) (i : Nat) : Caller α :=
  ⟨if i < n then made.map (·.replyTo n i) else [], none, if i < n then left else []⟩

theorem Caller.through_gone (n : Nat) (made : List (Call α)) (i : Nat) :
    (through n made [] i).Gone := by
  refine Or.inl ⟨rfl, ?_⟩
  simp [through]

/-- **One call of all parties.** -/
theorem Step.call (hn : n < 2 ^ 64) {c : Call α} (hc : c.Carried n) (made left : List (Call α)) :
    ReflTransGen (Step n) (Caller.through n made (c :: left))
      (Caller.through n (made ++ [c]) left) := by
  have hbegin := turns (n := n) (s := Caller.through n made (c :: left))
    (t := fun i => (Caller.through n made left i).running ((c.run ⟨i, n⟩).start ())) (by
      intro i hi
      simp [Caller.through, Caller.turn, Caller.running, hi])
  have hbegun : (fun i => if i < n then (Caller.through n made left i).running
      ((c.run ⟨i, n⟩).start ()) else Caller.through n made (c :: left) i)
      = Caller.allRunning n (Caller.through n made left) fun i => (c.run ⟨i, n⟩).start () := by
    funext i
    by_cases hi : i < n
    · simp [Caller.allRunning, hi]
    · simp [Caller.allRunning, Caller.through, hi]
  have hend := turns (n := n) (s := Caller.allRunning n (Caller.through n made left) fun i =>
      .done (.ok (c.replyTo n i), ())) (t := Caller.through n (made ++ [c]) left) (by
        intro i hi
        simp [Caller.allRunning, Caller.through, Caller.turn, Caller.running, hi])
  have hended : (fun i => if i < n then Caller.through n (made ++ [c]) left i
      else Caller.allRunning n (Caller.through n made left)
        (fun i => .done (.ok (c.replyTo n i), ())) i) = Caller.through n (made ++ [c]) left := by
    funext i
    by_cases hi : i < n
    · simp [hi]
    · simp [Caller.allRunning, Caller.through, hi]
  rw [hbegun] at hbegin
  rw [hended] at hend
  exact (hbegin.trans (call_run hn hc (Caller.through n made left))).trans hend

/-- One run of all calls. -/
theorem Step.calls (hn : n < 2 ^ 64) (made left : List (Call α)) (hc : ∀ c ∈ left, c.Carried n) :
    ReflTransGen (Step n) (Caller.through n made left)
      (Caller.through n (made ++ left) []) := by
  induction left generalizing made with
  | nil => simpa using ReflTransGen.refl
  | cons c left ih =>
    have hfirst := Step.call hn (hc c mem_cons_self) made left
    have hrest := ih (made ++ [c]) fun d hd => hc d (mem_cons_of_mem c hd)
    rw [append_assoc, singleton_append] at hrest
    exact hfirst.trans hrest

/-- **Nobody gets stuck, and every reply is right.**  However the moves of the parties are
ordered, as long as one of them has calls left some move is possible; no call fails; and
the replies that a party has are those of its first calls, each with what every party has
addressed to it in that call. -/
theorem common_calls {n : Nat} (hn : n < 2 ^ 64) {calls : List (Call α)}
    (hcarried : ∀ c ∈ calls, c.Carried n) {s : Nat → Caller α}
    (hrun : ReflTransGen (Step n) (Caller.start n calls) s) :
    ((∀ i < n, (s i).Finished) ∨ ∃ s', Step n s s') ∧
      ∀ i < n, ¬ (s i).Failed ∧ (s i).replies <+: calls.map (·.replyTo n i) ∧
        ((s i).Finished → (s i).replies = calls.map (·.replyTo n i)) := by
  have hstart : Caller.start n calls = Caller.through n [] calls := by
    funext i
    simp [Caller.start, Caller.through]
  have hone : ReflTransGen (Step n) (Caller.start n calls) (Caller.through n calls []) := by
    have hcalls := Step.calls hn [] calls hcarried
    rwa [← hstart, nil_append] at hcalls
  have hends := Step.reaches (Caller.through_gone n calls) hone hrun
  refine ⟨?_, fun i hi => ⟨?_, ?_, ?_⟩⟩
  · rcases hends.cases_head with rfl | ⟨s', hstep, -⟩
    · exact Or.inl fun i hi => by simp [Caller.Finished, Caller.through]
    · exact Or.inr ⟨s', hstep⟩
  · intro hfailed
    have hstays := Step.gone_stays hends (Or.inr hfailed)
    obtain ⟨e, he⟩ := hfailed
    simp [← hstays, Caller.through] at he
  · have hfront := Step.replies_kept hends i
    simpa [Caller.through, hi] using hfront
  · intro hfinished
    rw [← Step.gone_stays hends (Or.inl hfinished)]
    simp [Caller.through, hi]

/-- Messages of two types. -/
def SampleMessage : Bool → Type
  | true => Nat
  | false => Bytes

/-- Everybody sends everybody else a number that depends on both. -/
def sampleScatter : Call SampleMessage :=
  .scatter true "sample numbers" (Wire.number 2) fun i k => 16 * i + k

/-- Everybody sends all others the same two bytes. -/
def sampleBroadcast : Call SampleMessage :=
  .broadcast false "sample bytes" (Wire.bytes 2) fun i => [UInt8.ofNat i, 7]

theorem carried_sampleCalls : ∀ c ∈ [sampleScatter, sampleBroadcast], c.Carried 3 := by
  intro c hc
  rw [mem_cons, mem_singleton] at hc
  rcases hc with rfl | rfl
  · intro i hi k hk
    exact Wire.carries_number (by show 16 * i + k < 256 ^ 2; omega)
  · intro i hi
    exact Wire.carries_bytes rfl

/-- Three parties that have made the first of two calls are not stuck, and the reply of
party 1 names nobody at its own place. -/
theorem common_calls_sample :
    (∃ s', Step 3 (Caller.through 3 [sampleScatter] [sampleBroadcast]) s') ∧
      (Caller.through 3 [sampleScatter] [sampleBroadcast] 1).replies
        = [⟨true, [some (1 : Nat), none, some (33 : Nat)]⟩] := by
  have hrun : ReflTransGen (Step 3) (Caller.start 3 [sampleScatter, sampleBroadcast])
      (Caller.through 3 [sampleScatter] [sampleBroadcast]) := by
    have hstart : Caller.start 3 [sampleScatter, sampleBroadcast]
        = Caller.through 3 [] [sampleScatter, sampleBroadcast] := by
      funext i
      simp [Caller.start, Caller.through]
    rw [hstart]
    exact Step.call (by decide) (carried_sampleCalls _ mem_cons_self) [] [sampleBroadcast]
  obtain ⟨hfree, -⟩ := common_calls (by decide) carried_sampleCalls hrun
  refine ⟨?_, rfl⟩
  rcases hfree with hdone | hstep
  · have hleft := (hdone 0 (by decide)).2
    simp [Caller.through] at hleft
  · exact hstep

end Rendezvous

end Beaver
