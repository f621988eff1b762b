import Beaver.CoinToss
import Beaver.Proofs.Faults.Guards

/-!
# Tossing coins with guards

Openings are compared with the commitments at the same index, and a party whose index has
no commitment has no answer to that.  Broadcasts and openings both bring one value for
each party, so every index is there (`CoinToss.guards_commitAndOpen`).
-/

namespace Beaver.CoinToss

open Session (Guards)

variable {σ α : Type} {s : σ} {inv : σ → Prop}

namespace Guarded

/-- Whether every other party has opened what it committed to, from index `k` on. -/
def honored? (w : Wire α) (me : Nat) (commitments : List Bytes) :
    Nat → List (α × Bytes) → Option Bool
  | _, [] => some true
  | k, (v, salt) :: openings => do
      if k = me then honored? w me commitments (k + 1) openings
      else
        let c ← commitments[k]?
        if commit (w.encode v) salt k == c then honored? w me commitments (k + 1) openings
        else some false

/-- Every party commits to a value, then all values are opened. -/
def commitAndOpen (p : Player) (phase : String) (w : Wire α) (value : α) :
    Session σ (List α) := do
  let salt ← Session.draw 32
  let commitment := commit (w.encode value) salt p.me
  let commitments ← p.broadcast (phase ++ " commitment") (Wire.bytes 32) commitment
  let openings ← p.gather (phase ++ " opening") (w.pair (Wire.bytes 32)) (value, salt)
  let honest ← Session.total (honored? w p.me commitments 0 openings)
  if honest then pure (openings.map (·.1))
  else Session.fail (.cheat .commitment)

/-- A random stream that all parties have tossed together. -/
def shared (p : Player) : Session σ CoinStream := do
  let seed ← Session.draw 32
  let seeds ← commitAndOpen p "coin toss" (Wire.bytes 32) seed
  pure (CoinStream.ofSeed (join seeds))

end Guarded

/-- No index is past the commitments, if there is one for each opening. -/
theorem honored?_eq (w : Wire α) (me : Nat) {commitments : List Bytes}
    {openings : List (α × Bytes)} {k : Nat} (h : k + openings.length ≤ commitments.length) :
    Guarded.honored? w me commitments k openings
      = some (((commitments.drop k).zip openings).zipIdx k |>.all fun p =>
          p.2 == me || commit (w.encode p.1.2.1) p.1.2.2 p.2 == p.1.1) := by
  induction openings generalizing k with
  | nil => simp [Guarded.honored?]
  | cons opening openings ih =>
    obtain ⟨v, salt⟩ := opening
    rw [List.length_cons] at h
    have hk : k < commitments.length := by omega
    have hrest := ih (k := k + 1) (by omega)
    rw [List.drop_eq_getElem_cons hk, List.zip_cons_cons, List.zipIdx_cons, List.all_cons]
    by_cases hme : k = me
    · subst hme
      simp [Guarded.honored?, ← hrest]
    · by_cases hopen : commit (w.encode v) salt k = commitments[k]
      · simp [Guarded.honored?, hme, hopen, hk, ← hrest]
      · simp [Guarded.honored?, hme, hopen, hk]

theorem guards_commitAndOpen {p : Player} {phase : String} {w : Wire α} {x : α}
    {post : List α → σ → Prop} (hpost : ∀ xs, post xs s) (herror : inv s) :
    Guards s (Guarded.commitAndOpen p phase w x) (commitAndOpen p phase w x) post inv := by
  refine .bind (.draw fun salt _ => .bind (Player.guards_broadcast (fun commitments hcount => ?_)
    herror))
  refine .bind (Player.guards_gather (fun openings hlength => ?_) herror)
  refine .guard (honored?_eq w p.me (by omega)) ?_
  exact .ite (fun _ => .pure (hpost _)) fun _ => .fail herror

variable {post : CoinStream → σ → Prop}

theorem guards_shared {p : Player} (hpost : ∀ coins, post coins s) (herror : inv s) :
    Guards s (Guarded.shared p) (shared p) post inv :=
  .bind (.draw fun _ _ => .bind (guards_commitAndOpen (fun _ => .pure (hpost _)) herror))

/-- A toss over one link has no index to look at. -/
theorem guards_pairwise {l : LinkEnd} (hpost : ∀ coins, post coins s) (herror : inv s) :
    Guards s (pairwise l) (pairwise l) post inv :=
  .of_always (always_pairwise (fun _ _ => trivial) hpost (fun _ _ => ⟨nofun, herror⟩)
    fun _ => ⟨nofun, herror⟩)

end Beaver.CoinToss
