import Beaver.MacCheck
import Beaver.Proofs.Faults.Arithmetic
import Beaver.Proofs.Faults.Tossing

/-!
# Opening shares with guards

Opened values are sums of what stands at one index of every party's list.  A list of
another length is refused before any index is looked at, so an opening comes to its values
or to an error (`MacCheck.guards_openShares`), and so does the check of the tags
(`MacCheck.guards_check`), from any state of the checker.
-/

namespace Beaver.MacCheck

open ShareRing
open Session (Guards)

variable {τ μ : Type} [ShareRing τ] [ShareRing μ] [WordRing τ] [WordRing μ]

/-- Column `j` of the parties' lists, in which every party has an entry. -/
def column? {α : Type} (all : List (List α)) (j : Nat) : Option (List α) :=
  all.mapM (·[j]?)

/-- What opening shares gives for each of them, added up in words. -/
def opened? [Lift τ μ] (all : List (List τ)) (shares : List (Share τ μ)) :
    Option (List (τ × μ × μ)) :=
  shares.zipIdx.mapM fun p => do
    let column ← column? all p.2
    let value ← WordRing.sum? column
    let lifted ← WordRing.sum? (column.map Lift.lift)
    some (value, lifted, p.1.tag)

/-- The combinations of values and of tags, found in words. -/
def combine? (pending : List (μ × μ)) (s : CoinStream) : Option (μ × μ) :=
  (pending.zip (samples pending.length s).1).foldlM (fun acc p => do
    let value ← WordRing.add? acc.1 (← WordRing.mul? p.2 p.1.1)
    let tag ← WordRing.add? acc.2 (← WordRing.mul? p.2 p.1.2)
    some (value, tag)) (0, 0)

namespace Guarded

/-- Opens shares to all parties. -/
def openShares [Lift τ μ] (p : Player) (phase : String) (shares : List (Share τ μ)) :
    Session (MacCheck μ) (List τ) := do
  let all ← p.gather phase (Wire.element τ).list (shares.map (·.value))
  all.forM fun theirs => Session.check (checkLength shares.length theirs.length)
  let opened ← Session.total (opened? all shares)
  modify fun s => { s with pending := s.pending ++ opened.map (·.2) }
  pure (opened.map (·.1))

/-- Checks the tags of everything opened since the last check. -/
def check (p : Player) : Session (MacCheck μ) Unit := do
  let pending := (← get).pending
  modify fun s => { s with pending := [] }
  if pending.isEmpty then pure ()
  else
    let stream ← CoinToss.Guarded.shared p
    let (value, tag) ← Session.total (combine? pending stream)
    let key := (← get).key
    let sigma ← Session.total (do WordRing.sub? tag (← WordRing.mul? key value))
    let sigmas ← CoinToss.Guarded.commitAndOpen p "MAC check" (Wire.element μ) sigma
    let difference ← Session.total (WordRing.sum? sigmas)
    if difference = 0 then pure ()
    else Session.fail (.cheat .tag)

end Guarded

theorem column?_eq {α : Type} {all : List (List α)} {j : Nat}
    (h : ∀ theirs ∈ all, j < theirs.length) : column? all j = some (column all j) := by
  induction all with
  | nil => rfl
  | cons theirs all ih =>
    have hlt : j < theirs.length := h theirs List.mem_cons_self
    have hj : theirs[j]? = some theirs[j] := List.getElem?_eq_getElem hlt
    have hrest : all.mapM (·[j]?) = some (column all j) :=
      ih fun theirs htheirs => h theirs (List.mem_cons_of_mem _ htheirs)
    rw [column?, List.mapM_cons, hj, hrest]
    simp [column, hlt]

section Lawful

variable [LawfulShareRing τ] [LawfulShareRing μ]
variable {shares : List (Share τ μ)} {s : MacCheck μ} {p : Player}

theorem opened?_eq [Lift τ μ] {all : List (List τ)}
    (h : ∀ theirs ∈ all, theirs.length = shares.length) :
    opened? all shares = some (opened all shares) := by
  refine mapM_eq_some fun p hp => ?_
  have hj : p.2 < shares.length := by
    have hlt := List.snd_lt_of_mem_zipIdx hp
    omega
  rw [column?_eq fun theirs htheirs => by rw [h theirs htheirs]; exact hj]
  simp

theorem combine?_eq (pending : List (μ × μ)) (s : CoinStream) :
    combine? pending s = some (combine pending s) :=
  foldlM_eq_some fun p _ acc => by simp

/-- **An opening never faults**, whatever arrives, and gives one value for each share. -/
theorem guards_openShares [Lift τ μ] {phase : String} :
    Guards s (Guarded.openShares p phase shares) (openShares p phase shares)
      (fun values _ => values.length = shares.length) fun _ => True := by
  refine .bind (Player.guards_gather (fun all _ => .bind (.forM_check (fun hall => ?_) trivial))
    trivial)
  refine .guard (opened?_eq fun theirs htheirs => ?_) (.modifyThen (.pure ?_))
  · exact (checkLength_ok (hall theirs htheirs)).symm
  · rw [List.length_map, opened, List.length_map, List.length_zipIdx]

/-- **A check of the tags never faults**, whatever arrives. -/
theorem guards_check :
    Guards s (Guarded.check p) (check p) (fun _ _ => True) fun _ => True := by
  refine .getThen (.modifyThen (.ite (fun _ => .pure trivial) fun _ => ?_))
  refine .bind (CoinToss.guards_shared (fun stream => ?_) trivial)
  refine .guard (combine?_eq s.pending stream) (.getThen ?_)
  have hsigma : ∀ key value tag : μ, (do WordRing.sub? tag (← WordRing.mul? key value))
      = some (tag - key * value) := by simp
  refine .guard (hsigma _ _ _) ?_
  refine .bind (CoinToss.guards_commitAndOpen (fun sigmas => ?_) trivial)
  refine .guard (WordRing.sum?_eq sigmas) ?_
  exact .ite (fun _ => .pure trivial) fun _ => .fail trivial

end Lawful

end Beaver.MacCheck
