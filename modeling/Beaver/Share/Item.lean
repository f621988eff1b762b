import Beaver.Ring.Name
import Beaver.Share

/-!
# Items by the name of their type

Which items a file holds is known only when the program runs.  An item is then
described by the rings it is made of and its kind, and shown as the flat list of
the integers that represent its elements.
-/

namespace Beaver

/-- The kinds of items. -/
inductive ItemKind where
  | share
  | triple
  | plainTriple
  | inputMask
  | pair
  deriving DecidableEq

/-- The type of an item. -/
structure ItemType where
  domain : Domain
  kind : ItemKind

namespace ItemType

open ShareRing

/-- The ring of the values. -/
abbrev Value (t : ItemType) : Type := t.domain.value.Carrier

/-- The ring of the tags. -/
abbrev Tag (t : ItemType) : Type := t.domain.tag.Carrier

/-- The items of the given rings and kind. -/
abbrev ItemOf (τ μ : Type) : ItemKind → Type
  | .share => Share τ μ
  | .triple => Triple τ μ
  | .plainTriple => PlainTriple τ
  | .inputMask => InputMask τ μ
  | .pair => Share τ μ × Share τ μ

/-- The items of a type. -/
abbrev Item (t : ItemType) : Type := ItemOf t.Value t.Tag t.kind

instance (τ μ : Type) [ShareRing τ] [ShareRing μ] : (k : ItemKind) → Stored (ItemOf τ μ k)
  | .share => inferInstanceAs (Stored (Share τ μ))
  | .triple => inferInstanceAs (Stored (Triple τ μ))
  | .plainTriple => inferInstanceAs (Stored (PlainTriple τ))
  | .inputMask => inferInstanceAs (Stored (InputMask τ μ))
  | .pair => inferInstanceAs (Stored (Share τ μ × Share τ μ))

variable {τ μ : Type} [ShareRing τ] [ShareRing μ]

/-- The integers of a share. -/
def flatShare (x : Share τ μ) : List Nat :=
  [toNat x.value, toNat x.tag]

/-- The integers of an item. -/
def flatten : (k : ItemKind) → ItemOf τ μ k → List Nat
  | .share, x => flatShare x
  | .triple, x => flatShare x.a ++ flatShare x.b ++ flatShare x.c
  | .plainTriple, x => [toNat x.a, toNat x.b, toNat x.c]
  | .inputMask, x => flatShare x.share ++ [toNat x.clear]
  | .pair, x => flatShare x.1 ++ flatShare x.2

/-- The share with the given integers. -/
def shareOf (value tag : Nat) : Share τ μ := ⟨ofNat value, ofNat tag⟩

/-- The item with the given integers, if their number is right. -/
def unflatten? : (k : ItemKind) → List Nat → Option (ItemOf τ μ k)
  | .share, [v, t] => some (shareOf v t)
  | .triple, [a, s, b, t, c, u] => some ⟨shareOf a s, shareOf b t, shareOf c u⟩
  | .plainTriple, [a, b, c] => some ⟨ofNat a, ofNat b, ofNat c⟩
  | .inputMask, [v, t, x] => some ⟨shareOf v t, ofNat x⟩
  | .pair, [a, s, b, t] => some (shareOf a s, shareOf b t)
  | _, _ => none

end ItemType

end Beaver
