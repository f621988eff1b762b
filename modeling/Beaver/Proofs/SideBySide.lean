import Beaver.Protocol

/-!
# Programs side by side

A party may run several programs side by side, one for each of its peers.  What such a
composition does next is what one of its programs does next (`parallel_view`): any of
them that has a step to make, or all that wait.
-/

namespace Beaver

open List

namespace Protocol

variable {β : Type}

/-- What programs side by side do next.  A program that waits for nobody is dropped. -/
inductive ParallelView (ts : List (Protocol β)) : Protocol (List β) → Prop
  | done (h : ∀ t ∈ ts, (∃ b, t = .done b) ∨ ∃ f, t = .recv [] f) :
      ParallelView ts (.done (ts.filterMap result?))
  | send {l peer m next} (h : ts[l]? = some (.send peer m next)) :
      ParallelView ts (.send peer m (parallel (ts.set l next)))
  | draw {l n next} (h : ts[l]? = some (.draw n next)) :
      ParallelView ts (.draw n fun bs => parallel (ts.set l (next bs)))
  | close {l peer next} (h : ts[l]? = some (.close peer next)) :
      ParallelView ts (.close peer (parallel (ts.set l next)))
  | recv {peers next} (hsome : 0 < peers.length)
      (hfrom : ∀ k, ∃ l ps f, ∃ k' : Fin ps.length, ts[l]? = some (.recv ps f) ∧
        ps.get k' = peers.get k ∧ ∀ m, next k m = parallel (ts.set l (f k' m)))
      (hidle : ∀ t ∈ ts, (∃ b, t = .done b) ∨ ∃ ps f, t = .recv ps f)
      (hall : ∀ ps f, .recv ps f ∈ ts → ∀ k' : Fin ps.length, ∃ k, peers.get k = ps.get k') :
      ParallelView ts (.recv peers next)

variable {ts : List (Protocol β)}

/-- A move is the next step of one of the programs. -/
inductive OneMoves (ts : List (Protocol β)) : Move ts → Prop
  | send {l peer m next qs} (h : ts[l]? = some (.send peer m next)) (hqs : qs.1 = ts.set l next) :
      OneMoves ts (.send peer m qs)
  | draw {l n next qs} (h : ts[l]? = some (.draw n next))
      (hqs : ∀ bs, (qs bs).1 = ts.set l (next bs)) : OneMoves ts (.draw n qs)
  | close {l peer next qs} (h : ts[l]? = some (.close peer next)) (hqs : qs.1 = ts.set l next) :
      OneMoves ts (.close peer qs)

theorem OneMoves.after {move : Move ts} (h : OneMoves ts move) (t : Protocol β) :
    OneMoves (t :: ts) (move.after t) := by
  cases h with
  | @send l _ _ _ _ hl hqs => exact .send (l := l + 1) hl (by simp [hqs])
  | @draw l _ _ _ hl hqs => exact .draw (l := l + 1) hl fun bs => by simp [hqs]
  | @close l _ _ _ hl hqs => exact .close (l := l + 1) hl (by simp [hqs])

theorem oneMoves_of_move? {move : Move ts} (h : move? ts = some move) : OneMoves ts move := by
  induction ts with
  | nil => cases h
  | cons t ts ih =>
    cases t with
    | send peer m next => cases h; exact .send (l := 0) rfl rfl
    | draw n next => cases h; exact .draw (l := 0) rfl fun _ => rfl
    | close peer next => cases h; exact .close (l := 0) rfl rfl
    | done _ | recv _ _ =>
      obtain ⟨move', hmove, rfl⟩ := Option.map_eq_some_iff.mp h
      exact (ih hmove).after _

theorem idle_of_move?_eq_none (h : move? ts = none) :
    ∀ t ∈ ts, (∃ b, t = .done b) ∨ ∃ ps f, t = .recv ps f := by
  induction ts with
  | nil => intro t ht; cases ht
  | cons t ts ih =>
    cases t with
    | send peer m next => cases h
    | draw n next => cases h
    | close peer next => cases h
    | done _ | recv _ _ =>
      have hrest : move? ts = none := Option.map_eq_none_iff.mp h
      exact forall_mem_cons.mpr ⟨by simp, ih hrest⟩

theorem recv_of_mem_waits {w : Wait ts} (h : w ∈ waits ts) :
    ∃ l ps f, ∃ k' : Fin ps.length, ts[l]? = some (.recv ps f) ∧ ps.get k' = w.peer ∧
      ∀ m, (w.next m).1 = ts.set l (f k' m) := by
  induction ts with
  | nil => cases h
  | cons t ts ih =>
    rcases mem_append.mp h with hhead | htail
    · cases t with
      | recv ps f =>
        obtain ⟨k', -, rfl⟩ := mem_map.mp hhead
        exact ⟨0, ps, f, k', rfl, rfl, fun _ => rfl⟩
      | done _ | send _ _ _ | draw _ _ | close _ _ => cases hhead
    · obtain ⟨v, hv, rfl⟩ := mem_map.mp htail
      obtain ⟨l, ps, f, k', hl, hpeer, hnext⟩ := ih hv
      exact ⟨l + 1, ps, f, k', hl, hpeer, fun m => by simp [Wait.after, hnext]⟩

theorem mem_waits_of_recv {ps : List Nat} {f : Fin ps.length → Option Bytes → Protocol β}
    (h : .recv ps f ∈ ts) (k' : Fin ps.length) : ∃ w ∈ waits ts, w.peer = ps.get k' := by
  induction ts with
  | nil => cases h
  | cons t ts ih =>
    rcases mem_cons.mp h with rfl | htail
    · refine ⟨⟨ps.get k', fun m => ⟨f k' m :: ts, .head (.recv k' m)⟩⟩, ?_, rfl⟩
      apply mem_append_left
      exact mem_map.mpr ⟨k', mem_finRange k', rfl⟩
    · obtain ⟨w, hw, hpeer⟩ := ih htail
      exact ⟨w.after t, mem_append_right _ (mem_map_of_mem hw), hpeer⟩

/-- **Programs side by side do what one of them does.** -/
theorem parallel_view (ts : List (Protocol β)) : ParallelView ts (parallel ts) := by
  rw [parallel]
  split
  · next peer m qs hadvance hmove =>
      cases oneMoves_of_move? hmove with
      | send hl hqs => subst hqs; exact .send hl
  · next n next hmove =>
      cases oneMoves_of_move? hmove with
      | draw hl hnext => simp only [hnext]; exact .draw hl
  · next peer qs hadvance hmove =>
      cases oneMoves_of_move? hmove with
      | close hl hqs => subst hqs; exact .close hl
  · next hmove =>
      have hidle := idle_of_move?_eq_none hmove
      split
      · next hwaits =>
          refine .done fun t ht => ?_
          rcases hidle t ht with hdone | ⟨ps, f, rfl⟩
          · exact .inl hdone
          · cases ps with
            | nil => exact .inr ⟨f, rfl⟩
            | cons j ps =>
              obtain ⟨v, hv, -⟩ := mem_waits_of_recv ht ⟨0, Nat.zero_lt_succ _⟩
              rw [hwaits] at hv
              cases hv
      · next w ws hwaits =>
          refine .recv (Nat.zero_lt_succ _) ?_ hidle ?_
          · intro k
            have hmem : (w :: ws).get (k.cast (length_map _)) ∈ waits ts :=
              by
                rw [hwaits]
                exact get_mem _ _
            obtain ⟨l, ps, f, k', hl, hpeer, hnext⟩ := recv_of_mem_waits hmem
            refine ⟨l, ps, f, k', hl, ?_, fun m => ?_⟩
            · rw [hpeer]
              exact (getElem_map Wait.peer).symm
            · rw [hnext]
          · intro ps f hrecv k'
            obtain ⟨v, hv, hpeer⟩ := mem_waits_of_recv hrecv k'
            rw [hwaits] at hv
            obtain ⟨k, hk⟩ := get_of_mem hv
            refine ⟨k.cast (length_map _).symm, ?_⟩
            rw [← hpeer, ← hk]
            exact getElem_map Wait.peer

theorem eq_done_of_isDone {p : Protocol β} (h : p.isDone = true) : ∃ b, p = .done b := by
  cases p with
  | done b => exact ⟨b, rfl⟩
  | send _ _ _ | recv _ _ | draw _ _ | close _ _ => cases h

/-- Nothing is left to do side by side. -/
theorem parallel_map_done (bs : List β) : parallel (bs.map done) = done bs := by
  have hdone : ∀ {l : Nat} {q : Protocol β}, (bs.map done)[l]? = some q → ∃ b, q = done b := by
    intro l q hl
    obtain ⟨b, -, rfl⟩ := mem_map.mp (mem_of_getElem? hl)
    exact ⟨b, rfl⟩
  generalize hq : parallel (bs.map done) = q
  have hview := parallel_view (bs.map done)
  rw [hq] at hview
  cases hview with
  | done h => rw [filterMap_map]; exact congrArg done (filterMap_some (l := bs))
  | send hl | draw hl | close hl =>
    obtain ⟨b, hb⟩ := hdone hl
    cases hb
  | recv hsome hfrom hidle hall =>
    obtain ⟨l, ps, f, k', hl, -, -⟩ := hfrom ⟨0, hsome⟩
    obtain ⟨b, hb⟩ := hdone hl
    cases hb

end Protocol

end Beaver
