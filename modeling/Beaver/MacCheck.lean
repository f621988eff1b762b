import Beaver.CoinToss
import Beaver.Share

/-!
# Opening shares and checking their tags

A value is opened by sending its shares around; its tag is kept.  Later one check
covers everything opened since the last: with tossed coefficients every party
commits to its share of the combined tag less its key times the combined value,
and these shares have to add up to zero.
-/

namespace Beaver

/-- A party's share of the key, with the opened values and shares of tags that have
not been checked. -/
structure MacCheck (μ : Type) where
  key : μ
  pending : List (μ × μ)

namespace MacCheck

open ShareRing

variable {τ μ : Type} [ShareRing τ] [ShareRing μ]

/-- Nothing to check yet. -/
def ofKey (key : μ) : MacCheck μ := ⟨key, []⟩

/-- Column `j` of the parties' lists. -/
def column (all : List (List τ)) (j : Nat) : List τ :=
  all.filterMap (·[j]?)

/-- What opening shares gives for each of them: its value, and what the check needs. -/
def opened [Lift τ μ] (all : List (List τ)) (shares : List (Share τ μ)) : List (τ × μ × μ) :=
  shares.zipIdx.map fun (share, j) =>
    let column := column all j
    (sum column, sum (column.map Lift.lift), share.tag)

/-- Opens shares to all parties.  Values are sums in their own ring; the tags
belong to the sums of the lifted shares. -/
def openShares [Lift τ μ] (p : Player) (phase : String) (shares : List (Share τ μ)) :
    Session (MacCheck μ) (List τ) := do
  let all ← p.gather phase (Wire.element τ).list (shares.map (·.value))
  all.forM fun theirs => Session.check (checkLength shares.length theirs.length)
  modify fun s => { s with pending := s.pending ++ (opened all shares).map (·.2) }
  pure ((opened all shares).map (·.1))

/-- The combinations of values and of tags with coefficients from a stream. -/
def combine (pending : List (μ × μ)) (s : CoinStream) : μ × μ :=
  let (coefficients, _) := samples pending.length s
  (pending.zip coefficients).foldl
    (fun acc (p, c) => (acc.1 + c * p.1, acc.2 + c * p.2)) (0, 0)

/-- Checks the tags of everything opened since the last check. -/
def check (p : Player) : Session (MacCheck μ) Unit := do
  let pending := (← get).pending
  modify fun s => { s with pending := [] }
  if pending.isEmpty then pure ()
  else
    let stream ← CoinToss.shared p
    let (value, tag) := combine pending stream
    let sigma := tag - (← get).key * value
    let sigmas ← CoinToss.commitAndOpen p "MAC check" (Wire.element μ) sigma
    if sum sigmas = 0 then pure ()
    else Session.fail (.cheat .tag)

end MacCheck

end Beaver
