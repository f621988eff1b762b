import Beaver.Error
import Beaver.Wire

/-!
# Authenticated shares

A value is the sum of the parties' shares of it, and its tag, the product with a
key that nobody knows, is the sum of the parties' shares of that.  Sums and public
multiples are formed by every party on its own.
-/

namespace Beaver

open ShareRing

/-- One party's share of an authenticated value. -/
structure Share (τ μ : Type) where
  value : τ
  tag : μ
  deriving DecidableEq

namespace Share

variable {τ μ : Type} [ShareRing τ] [ShareRing μ]

instance : Zero (Share τ μ) := ⟨⟨0, 0⟩⟩

instance : Add (Share τ μ) := ⟨fun x y => ⟨x.value + y.value, x.tag + y.tag⟩⟩

instance : Sub (Share τ μ) := ⟨fun x y => ⟨x.value - y.value, x.tag - y.tag⟩⟩

instance : Neg (Share τ μ) := ⟨fun x => ⟨-x.value, -x.tag⟩⟩

variable [Lift τ μ]

/-- The share of the product with a public constant. -/
def mulPublic (x : Share τ μ) (c : τ) : Share τ μ :=
  ⟨x.value * c, x.tag * Lift.lift c⟩

/-- The share of the sum with a public constant.  Only party 0 changes its value;
every party adjusts its tag by its share of the key. -/
def addPublic (x : Share τ μ) (c : τ) (key : μ) (me : Nat) : Share τ μ :=
  ⟨if me = 0 then x.value + c else x.value, x.tag + key * Lift.lift c⟩

end Share

/-- One party's share of a product triple. -/
structure Triple (τ μ : Type) where
  a : Share τ μ
  b : Share τ μ
  c : Share τ μ
  deriving DecidableEq

/-- The shares of the factors and of the product. -/
def Triple.parts {τ μ : Type} (t : Triple τ μ) : List (Share τ μ) :=
  [t.a, t.b, t.c]

/-- The triple of three shares. -/
def Triple.ofParts? {τ μ : Type} : List (Share τ μ) → Option (Triple τ μ)
  | [a, b, c] => some ⟨a, b, c⟩
  | _ => none

/-- One party's share of a product triple without tags. -/
structure PlainTriple (τ : Type) where
  a : τ
  b : τ
  c : τ
  deriving DecidableEq

/-- One party's share of an input mask, with the mask itself for its owner and zero
for all others. -/
structure InputMask (τ μ : Type) where
  share : Share τ μ
  clear : τ
  deriving DecidableEq

/-- Items of a fixed size that a file can hold. -/
class Stored (δ : Type) where
  /-- What the file's header says about its items. -/
  signature : String
  /-- The size of an item in bytes. -/
  size : Nat
  /-- The bytes of an item. -/
  pack : δ → Bytes
  /-- The item with the given bytes, once their number is right. -/
  unpackExact : Bytes → Except Error δ
  /-- The encoding in messages. -/
  wire : Wire δ

/-- The item with the given bytes. -/
def Stored.unpack {δ : Type} [Stored δ] (bs : Bytes) : Except Error δ := do
  checkLength (Stored.size δ) bs.length
  Stored.unpackExact bs

/-- The element with the given bytes. -/
def unpackElement (α : Type) [ShareRing α] (bs : Bytes) : Except Error α :=
  match decode? bs with
  | some x => .ok x
  | none => .error (.encoding (label α))

section Instances

variable (τ μ : Type) [ShareRing τ] [ShareRing μ]

instance : Stored (Share τ μ) where
  signature := "Share<" ++ name τ ++ "," ++ name μ ++ ">"
  size := bytes τ + bytes μ
  pack x := encode x.value ++ encode x.tag
  unpackExact bs := do
    let value ← unpackElement τ (bs.take (bytes τ))
    let tag ← unpackElement μ (bs.drop (bytes τ))
    .ok ⟨value, tag⟩
  wire := (Wire.pair (Wire.element τ) (Wire.element μ)).map
    (fun p => ⟨p.1, p.2⟩) (fun x => (x.value, x.tag))

instance : Stored (Triple τ μ) where
  signature := "Triple(" ++ Stored.signature (Share τ μ) ++ ")"
  size := 3 * Stored.size (Share τ μ)
  pack x := Stored.pack x.a ++ Stored.pack x.b ++ Stored.pack x.c
  unpackExact bs := do
    let n := Stored.size (Share τ μ)
    let a ← Stored.unpack (bs.take n)
    let b ← Stored.unpack ((bs.drop n).take n)
    let c ← Stored.unpack (bs.drop (2 * n))
    .ok ⟨a, b, c⟩
  wire :=
    let w := Stored.wire (δ := Share τ μ)
    (Wire.pair w (Wire.pair w w)).map
      (fun p => ⟨p.1, p.2.1, p.2.2⟩) (fun x => (x.a, x.b, x.c))

instance : Stored (PlainTriple τ) where
  signature := "PlainTriple(" ++ name τ ++ ")"
  size := 3 * bytes τ
  pack x := encode x.a ++ encode x.b ++ encode x.c
  unpackExact bs := do
    let n := bytes τ
    let a ← unpackElement τ (bs.take n)
    let b ← unpackElement τ ((bs.drop n).take n)
    let c ← unpackElement τ (bs.drop (2 * n))
    .ok ⟨a, b, c⟩
  wire :=
    let w := Wire.element τ
    (Wire.pair w (Wire.pair w w)).map
      (fun p => ⟨p.1, p.2.1, p.2.2⟩) (fun x => (x.a, x.b, x.c))

instance : Stored (InputMask τ μ) where
  signature := "Input(" ++ Stored.signature (Share τ μ) ++ ")"
  size := Stored.size (Share τ μ) + bytes τ
  pack x := Stored.pack x.share ++ encode x.clear
  unpackExact bs := do
    let n := Stored.size (Share τ μ)
    let share ← Stored.unpack (bs.take n)
    let clear ← unpackElement τ (bs.drop n)
    .ok ⟨share, clear⟩
  wire := (Wire.pair (Stored.wire (δ := Share τ μ)) (Wire.element τ)).map
    (fun p => ⟨p.1, p.2⟩) (fun x => (x.share, x.clear))

/-- Pairs of shares hold squares and inverses. -/
instance : Stored (Share τ μ × Share τ μ) where
  signature := "Pair(" ++ Stored.signature (Share τ μ) ++ ")"
  size := 2 * Stored.size (Share τ μ)
  pack x := Stored.pack x.1 ++ Stored.pack x.2
  unpackExact bs := do
    let n := Stored.size (Share τ μ)
    let first ← Stored.unpack (bs.take n)
    let second ← Stored.unpack (bs.drop n)
    .ok (first, second)
  wire := Wire.pair Stored.wire Stored.wire

end Instances

end Beaver
