import Beaver.Block.Polynomial
import Beaver.Ring.Basic

/-!
# Binary fields

GF(2) for single bits, and GF(2^128) both for values and for the tags of bits.  In
both, addition and subtraction are exclusive or.
-/

namespace Beaver

/-- An element of GF(2^128): bit `i` is the coefficient of `X^i`. -/
structure Gf128 where
  block : Block
  deriving DecidableEq

namespace Gf128

instance : Add Gf128 := ⟨fun a b => ⟨a.block ^^^ b.block⟩⟩

instance : Sub Gf128 := ⟨fun a b => ⟨a.block ^^^ b.block⟩⟩

instance : Mul Gf128 := ⟨fun a b => ⟨a.block.gfMul b.block⟩⟩

instance : Neg Gf128 := ⟨fun a => a⟩

instance : Zero Gf128 := ⟨⟨Block.zero⟩⟩

instance : One Gf128 := ⟨⟨Block.one⟩⟩

end Gf128

instance : ShareField Gf128 where
  decEq := inferInstance
  bits := 128
  bytes := 16
  name := "2n128"
  label := "Gf2n128"
  toNat a := a.block.toNat
  ofNat x := ⟨Block.ofNat x⟩
  ofNat? x := if x < Nat.pow 2 128 then some ⟨Block.ofNat x⟩ else none
  basis? i := if i < 128 then some ⟨Block.ofNat (Nat.pow 2 i)⟩ else none
  ofBlock b := ⟨b⟩
  sampling := .wide
  inverse? a := a.block.gfInverse?.map Gf128.mk

/-- An element of GF(2). -/
structure Gf2 where
  value : Bool
  deriving DecidableEq

namespace Gf2

instance : Add Gf2 := ⟨fun a b => ⟨a.value ^^ b.value⟩⟩

instance : Sub Gf2 := ⟨fun a b => ⟨a.value ^^ b.value⟩⟩

instance : Mul Gf2 := ⟨fun a b => ⟨a.value && b.value⟩⟩

instance : Neg Gf2 := ⟨fun a => a⟩

instance : Zero Gf2 := ⟨⟨false⟩⟩

instance : One Gf2 := ⟨⟨true⟩⟩

end Gf2

instance : ShareField Gf2 where
  decEq := inferInstance
  bits := 1
  bytes := 1
  name := "2"
  label := "Gf2"
  toNat a := a.value.toNat
  ofNat x := ⟨x % 2 == 1⟩
  ofNat? x := if x < 2 then some ⟨x == 1⟩ else none
  basis? _ := some 1
  ofBlock b := ⟨b.lsb⟩
  sampling := .coin
  inverse? a := if a.value then some a else none

/-- A bit becomes a constant polynomial. -/
instance : Lift Gf2 Gf128 := ⟨fun x => ⟨Block.one.scale x.value⟩⟩

end Beaver
