import Beaver.Proofs.Exchange
import Beaver.Proofs.Together

/-!
# Gathering values and tossing coins

When all parties send their values around, everybody gets the same list: the values of
all parties in order (`Gives.gather`).  A broadcast compares digests of that list, and
commitments are opened to what was committed to, so honest parties pass both checks, and
the seeds they open add up to the same seed everywhere (`Gives.shared`).
-/

namespace Beaver

open List

variable {σ α : Type} {n : Nat} {tape : Nat → Tape} {t : Nat → σ}

theorem Player.joined_link {i j : Nat} (hij : i ≠ j) (n : Nat) :
    LinkEnd.Joined i j (Player.link ⟨i, n⟩ j) (Player.link ⟨j, n⟩ i) :=
  ⟨rfl, rfl, rfl, rfl, hij⟩

/-- The two ends exchange values, and nothing follows. -/
theorem Meets.exchanged {τ γ : Type} {i j : Nat} {l l' : LinkEnd} (hl : LinkEnd.Joined i j l l')
    {w : Wire γ} {c d : γ} (hc : w.Carries c) (hd : w.Carries d) (phase : String) (t₁ : σ) (t₂ : τ)
    (s u : Tape) :
    Meets i j (fun a b s' u' => a = (.ok d, t₁) ∧ b = (.ok c, t₂) ∧ s' = s ∧ u' = u)
      ((l.exchange phase w c).start t₁) ((l'.exchange phase w d).start t₂) [] [] s u := by
  have h : Meets i j (fun a b s' u' => a = (.ok d, t₁) ∧ b = (.ok c, t₂) ∧ s' = s ∧ u' = u)
      ((l.exchange phase w c >>= pure).start t₁) ((l'.exchange phase w d >>= pure).start t₂)
      [] [] s u := Meets.exchange hl hc hd (.done ⟨rfl, rfl, rfl, rfl⟩)
  rwa [bind_pure, bind_pure] at h

namespace Player

/-- What party `i` still has to gather when it has come to party `m`, with the values `r`
so far. -/
def gathering (phase : String) (w : Wire α) (n : Nat) (x : α) (i m : Nat) (r : Nat → α) :
    Session σ (List α) := do
  let rest ← (range' m (n - m)).mapM fun k =>
    if k = i then pure x else (link ⟨i, n⟩ k).exchange phase w x
  pure (((range m).map fun k => if k = i then x else r k) ++ rest)

variable {phase : String} {w : Wire α} {x : α} {i m : Nat} {r : Nat → α}

theorem gathering_zero (r : Nat → α) : (gathering phase w n x i 0 r : Session σ (List α))
    = gather ⟨i, n⟩ phase w x := by
  simp [gathering, gather, range_eq_range']

theorem gathering_all (r : Nat → α) : (gathering phase w n x i n r : Session σ (List α))
    = pure ((range n).map fun k => if k = i then x else r k) := by
  simp [gathering]

theorem range'_of_lt (hm : m < n) :
    range' m (n - m) = m :: range' (m + 1) (n - (m + 1)) := by
  rw [show n - m = n - (m + 1) + 1 by omega]
  rfl

/-- The value of the next party comes after those before. -/
theorem gathering_other (hm : m < n) (hi : m ≠ i) (r : Nat → α) :
    (gathering phase w n x i m r : Session σ (List α))
      = (link ⟨i, n⟩ m).exchange phase w x >>= fun y =>
          gathering phase w n x i (m + 1) (Function.update r m y) := by
  have hfront : ∀ y, ((range (m + 1)).map fun k => if k = i then x else Function.update r m y k)
      = ((range m).map fun k => if k = i then x else r k) ++ [y] := by
    intro y
    rw [range_succ, map_append, map_singleton, if_neg hi, Function.update_self]
    congr 1
    refine map_congr_left fun k hk => ?_
    rw [Function.update_of_ne (Nat.ne_of_lt (mem_range.mp hk))]
  simp only [gathering, range'_of_lt hm, mapM_cons, if_neg hi, bind_assoc, pure_bind, hfront,
    append_assoc, singleton_append]

/-- A party has its own value. -/
theorem gathering_self (hi : i < n) (r : Nat → α) :
    (gathering phase w n x i i r : Session σ (List α)) = gathering phase w n x i (i + 1) r := by
  simp [gathering, range'_of_lt hi, range_succ]

end Player

/-- **Everybody gathers the values of all.** -/
theorem Gives.gather {w : Wire α} {x : Nat → α} (hw : ∀ i < n, w.Carries (x i)) (phase : String)
    (t : Nat → σ) (tape : Nat → Tape) :
    Gives n (fun i => (Player.gather ⟨i, n⟩ phase w (x i)).start (t i)) tape
      (fun i => (.ok ((range n).map x), t i)) tape := by
  have : Nonempty α := ⟨x 0⟩
  have hrounds : Rounds n (fun i j b c => b = x j ∧ c = x i) (fun s s' => s' = s)
      (fun i m r => (Player.gathering phase w n (x i) i m r).start (t i))
      (fun i j => ((Player.link ⟨i, n⟩ j).exchange phase w (x i)).start (t i))
      (fun i j r => Session.resume fun y =>
        Player.gathering phase w n (x i) i (j + 1) (Function.update r j y)) := by
    refine ⟨fun _ => rfl, fun _ _ _ h h' => h'.trans h, ?_, ?_, ?_⟩
    · intro i r hi
      rw [Player.gathering_self hi]
    · intro i j r hi hj hij
      rw [Player.gathering_other hj (Ne.symm hij), Session.start_bind]
    · intro i j hij hj s u
      have hi : i < n := Nat.lt_trans hij hj
      refine (Meets.exchanged (Player.joined_link (Nat.ne_of_lt hij) n) (hw i hi) (hw j hj) phase
        (t i) (t j) s u).mono ?_
      rintro _ _ _ _ ⟨rfl, rfl, rfl, rfl⟩
      exact ⟨rfl, rfl, x j, x i, ⟨rfl, rfl⟩, fun _ => rfl, fun _ => rfl⟩
  refine Together.rounds hrounds ?_ ?_
  · intro i hi r
    rw [Player.gathering_zero]
  · intro r tape' hR hT
    refine Together.congr (Together.done ⟨rfl, rfl⟩) (fun i hi => ?_) fun i hi => (hT i hi).symm
    rw [Player.gathering_all, Session.start_pure]
    congr 3
    refine map_congr_left fun k hk => ?_
    have hk := mem_range.mp hk
    rcases Nat.lt_trichotomy i k with hlt | heq | hgt
    · rw [if_neg (Nat.ne_of_gt hlt)]
      exact (hR i k hlt hk).1.symm
    · rw [if_pos heq.symm, heq]
    · rw [if_neg (Nat.ne_of_lt hgt)]
      exact (hR k i hgt hi).2.symm

/-- Honest openings are what was committed to. -/
theorem CoinToss.honored_openings (w : Wire α) (i n : Nat) (x : Nat → α) (salt : Nat → Bytes) :
    honored w i ((range n).map fun k => commit (w.encode (x k)) (salt k) k)
      ((range n).map fun k => (x k, salt k)) = true := by
  rw [honored, all_eq_true]
  rintro ⟨⟨c, v, s⟩, k⟩ hmem
  obtain ⟨hc, hv⟩ := getElem?_zip_eq_some.mp (mk_mem_zipIdx_iff_getElem?.mp hmem)
  simp only [getElem?_map, Option.map_eq_some_iff, Prod.mk.injEq] at hc hv
  obtain ⟨a, ha, rfl⟩ := hc
  obtain ⟨b, hb, rfl, rfl⟩ := hv
  obtain ⟨-, rfl⟩ := List.getElem?_eq_some_iff.mp ha
  obtain ⟨-, rfl⟩ := List.getElem?_eq_some_iff.mp hb
  simp

namespace Gives

/-- Honest parties see the same broadcast. -/
theorem broadcast {w : Wire α} {x : Nat → α} (hw : ∀ i < n, w.Carries (x i)) (hn : n < 2 ^ 64)
    (phase : String) (t : Nat → σ) (tape : Nat → Tape) :
    Gives n (fun i => (Player.broadcast ⟨i, n⟩ phase w (x i)).start (t i)) tape
      (fun i => (.ok ((range n).map x), t i)) tape := by
  refine andThen (gather hw phase t tape) ?_
  by_cases htwo : n = 2
  · simp only [htwo, if_true]
    exact done _ tape
  · simp only [if_neg htwo]
    have hdigests : (Wire.bytes 32).list.Carries
        (((range n).map x).map fun m => Digest.hash (w.encode m)) := by
      refine .list ?_ (by simpa using hn)
      intro d hd
      obtain ⟨m, -, rfl⟩ := mem_map.mp hd
      exact Wire.carries_bytes (Digest.length_hash _)
    refine andThen (gather (fun _ _ => hdigests) _ t tape) ?_
    have hsame : ((range n).map fun _ => ((range n).map x).map fun m =>
        Digest.hash (w.encode m)).all (· == ((range n).map x).map fun m =>
        Digest.hash (w.encode m)) = true := by
      simp
    simp only [hsame, if_true]
    exact done _ tape

/-- **Commitments are opened to what was committed to.** -/
theorem commitAndOpen {w : Wire α} {x : Nat → α} (hw : ∀ i < n, w.Carries (x i))
    (hn : n < 2 ^ 64) (phase : String) (t : Nat → σ) (tape : Nat → Tape) :
    Gives n (fun i => (CoinToss.commitAndOpen ⟨i, n⟩ phase w (x i)).start (t i)) tape
      (fun i => (.ok ((range n).map x), t i)) fun i => (tape i).tail := by
  refine andThen (draw 32 t tape) ?_
  refine andThen (broadcast (fun i _ => Wire.carries_bytes (Digest.length_hash _)) hn _ t _) ?_
  refine andThen (gather (fun i hi => .pair (hw i hi) (Wire.carries_bytes (by simp))) _ t _) ?_
  refine (done _ _).congr fun i _ => ?_
  have hvalues : ((range n).map fun k => (x k, (tape k).next 32)).map (·.1) =
      (range n).map x := by
    rw [map_map]
    rfl
  refine Eq.symm (Eq.trans (congrArg (fun s : Session σ (List α) => s.start (t i))
    (if_pos (CoinToss.honored_openings w i n x fun k => (tape k).next 32))) ?_)
  rw [Session.start_pure, hvalues]

/-- The stream that the parties toss first. -/
def nextStream (n : Nat) (tape : Nat → Tape) : CoinStream :=
  CoinStream.ofSeed (CoinToss.join ((range n).map fun i => (tape i).next 32))

/-- **All parties toss the same coins.** -/
theorem shared (hn : n < 2 ^ 64) (t : Nat → σ) (tape : Nat → Tape) :
    Gives n (fun i => (CoinToss.shared ⟨i, n⟩).start (t i)) tape
      (fun i => (.ok (CoinStream.ofSeed
        (CoinToss.join ((range n).map fun k => (tape k).next 32))), t i))
      fun i => (tape i).tail.tail := by
  refine andThen (draw 32 t tape) ?_
  refine andThen (commitAndOpen (fun i _ => Wire.carries_bytes (by simp)) hn _ t _) ?_
  exact done _ _

end Gives

/-- The stream that parties with these coins toss after `k` more draws. -/
def CoinToss.streamAfter (coins : List Coins) (k : Nat) : CoinStream :=
  CoinStream.ofSeed (join (coins.map fun c => c.draws (c.used + k) 32))

theorem Gives.nextStream_tapes (coins : List Coins) (k : Nat) :
    nextStream coins.length (fun i => (Coins.tapes coins i).drop k)
      = CoinToss.streamAfter coins k := by
  rw [nextStream, CoinToss.streamAfter]
  congr 2
  apply ext_getElem
  · simp
  · intro i h _
    have hi : i < coins.length := by simpa using h
    simp only [getElem_map, getElem_range, Coins.tapes, getElem?_eq_getElem hi]
    rfl

end Beaver
