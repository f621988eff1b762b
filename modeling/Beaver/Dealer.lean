import Beaver.Random.Keystream
import Beaver.Share

/-!
# A trusted dealer

Who knows the key can share and authenticate values directly: every party but the
last gets random shares, and the last one what is missing.  The tag is made for
the sum of the lifted value shares.
-/

namespace Beaver.Dealer

open ShareRing

variable {τ μ : Type} [ShareRing τ] [ShareRing μ] [Lift τ μ]

/-- Random shares for `n` parties. -/
def randomShares : Nat → Keystream → List (Share τ μ) × Keystream
  | 0, s => ([], s)
  | n + 1, s =>
    let (value, s) := sample s
    let (tag, s) := sample s
    let (shares, s) := randomShares n s
    (⟨value, tag⟩ :: shares, s)

/-- Shares of one value under the sum of the given keys, one for each party. -/
def deal (keys : List μ) (value : τ) (s : Keystream) : List (Share τ μ) × Keystream :=
  let (shares, s) := randomShares (keys.length - 1) s
  let last := value - sum (shares.map (·.value))
  let lifted := sum ((shares.map (·.value) ++ [last]).map Lift.lift)
  let tag := sum keys * lifted - sum (shares.map (·.tag))
  (shares ++ [⟨last, tag⟩], s)

/-- Shares of several values: for each value the list of the parties' shares. -/
def dealAll (keys : List μ) : List τ → Keystream → List (List (Share τ μ)) × Keystream
  | [], s => ([], s)
  | v :: vs, s =>
    let (shares, s) := deal keys v s
    let (rest, s) := dealAll keys vs s
    (shares :: rest, s)

/-- Changes the share that a party has of one of the values, if it is there. -/
def correct? (shares : List (List (Share τ μ))) (party index : Nat)
    (f : Share τ μ → Share τ μ) : Option (List (List (Share τ μ))) := do
  let share ← (← shares[index]?)[party]?
  some (shares.modify index (·.set party (f share)))

/-- Shares of several values, listed by party.  A correction changes the share that
a party has of one of the values, and there has to be one. -/
def dealParties? (keys : List μ) (values : List τ)
    (corrections : List (Nat × Nat × (Share τ μ → Share τ μ))) (s : Keystream) :
    Option (List (List (Share τ μ)) × Keystream) := do
  let (shares, s) := dealAll keys values s
  let shares ← corrections.foldlM (fun shares (party, index, f) => correct? shares party index f) shares
  some ((List.range keys.length).map fun me => shares.filterMap (·[me]?), s)

/-- What the values of an item are. -/
inductive Shape where
  /-- Two factors and their product. -/
  | triple
  /-- A value and its square. -/
  | square
  /-- A value of its own. -/
  | single

/-- The number of values of an item. -/
def Shape.width : Shape → Nat
  | .triple => 3
  | .square => 2
  | .single => 1

/-- The values of a random item. -/
def Shape.sample (shape : Shape) (s : Keystream) : List τ × Keystream :=
  let (a, s) := ShareRing.sample s
  match shape with
  | .triple =>
    let (b, s) := ShareRing.sample s
    ([a, b, a * b], s)
  | .square => ([a, a * a], s)
  | .single => ([a], s)

/-- The values of several random items. -/
def Shape.samples (shape : Shape) : Nat → Keystream → List (List τ) × Keystream
  | 0, s => ([], s)
  | n + 1, s =>
    let (item, s) := shape.sample s
    let (rest, s) := shape.samples n s
    (item :: rest, s)

end Beaver.Dealer
