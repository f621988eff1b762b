import Beaver.Network

/-!
# Changing messages on their way

An edit names one message by its sender, its receiver and its number, and says
what becomes of it: it is lost, or it is replaced, cut, lengthened and has some of
its bits flipped, in this order.
-/

namespace Beaver

/-- What becomes of one message. -/
structure Edit where
  source : Nat
  target : Nat
  number : Nat
  lost : Bool
  replacement : Option Bytes
  keep : Option Nat
  suffix : Bytes
  mask : Bytes
  start : Nat
  stride : Nat
  repeats : Nat

namespace Edit

/-- Flips bits from a position on; there is nothing to flip past the end. -/
def flipAt (mask : Bytes) (bs : Bytes) (position : Nat) : Bytes :=
  let back := bs.drop position
  bs.take position ++ (Bytes.xor back mask ++ back.drop mask.length)

/-- The changed message, unless it is lost. -/
def apply (e : Edit) (bs : Bytes) : Option Bytes :=
  if e.lost then none
  else
    let bs := e.replacement.getD bs
    let bs := (e.keep.map bs.take).getD bs
    let bs := bs ++ e.suffix
    some ((List.range e.repeats).foldl
      (fun bs k => flipAt e.mask bs (e.start + k * e.stride)) bs)

/-- Applies the edits of a message in order. -/
def interference (edits : List Edit) : Interference := fun source target k bs =>
  (edits.filter fun e => e.source == source && e.target == target && e.number == k).foldlM
    (fun bs e => e.apply bs) bs

end Edit

end Beaver
