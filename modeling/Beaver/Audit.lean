import Beaver.Share

/-!
# Looking at all shares at once

Who sees the shares of all parties can check what the parties can only check by a
protocol: that products are right and that tags fit.  An item is the list of its
shares, and data is listed by party and then by item.
-/

namespace Beaver.Audit

open ShareRing

variable {τ μ : Type} [ShareRing τ] [ShareRing μ]

/-- Shares by party, item and part. -/
abbrev Data (τ μ : Type) := List (List (List (Share τ μ)))

/-- All parties' shares of one part of one item. -/
def shares (data : Data τ μ) (item part : Nat) : List (Share τ μ) :=
  data.filterMap fun items => (items[item]?).bind (·[part]?)

/-- The number of items. -/
def items (data : Data τ μ) : Nat :=
  (data.head?.map List.length).getD 0

/-- The number of parts of an item. -/
def parts (data : Data τ μ) (item : Nat) : Nat :=
  ((data.head?.bind (·[item]?)).map List.length).getD 0

/-- The values of an item. -/
def values (data : Data τ μ) (item : Nat) : List τ :=
  (List.range (parts data item)).map fun part => sum ((shares data item part).map (·.value))

/-- Three values are two factors and their product, two are a value and its square. -/
def related : List τ → Bool
  | [a, b, c] => a * b = c
  | [a, s] => a * a = s
  | _ => true

/-- The items whose values are not related as they should be. -/
def wrongItems (data : Data τ μ) : List Nat :=
  (List.range (items data)).filter fun i => !related (values data i)

/-- Whether the tags of a value are right under a key. -/
def tagged [Lift τ μ] (key : μ) (xs : List (Share τ μ)) : Bool :=
  sum (xs.map (·.tag)) = key * sum (xs.map fun x => Lift.lift x.value)

/-- The parts of items whose tags are wrong. -/
def wrongTags [Lift τ μ] (key : μ) (data : Data τ μ) : List (Nat × Nat) :=
  (List.range (items data)).flatMap fun i =>
    ((List.range (parts data i)).filter fun p => !tagged key (shares data i p)).map (i, ·)

/-- Whether everybody's share is what it knows in the clear, and only the owner
knows anything. -/
def ownerOnly (owner : Nat) (masks : List (List (InputMask τ μ))) : Bool :=
  masks.zipIdx.all fun (mine, party) =>
    mine.all fun m => m.share.value = m.clear && (party == owner || m.clear = 0)

end Beaver.Audit
