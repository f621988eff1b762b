import Beaver.Bytes

/-!
# Groups for base transfers

What base transfers need of a group: a generator, sums, differences and multiples
of its elements, and an encoding of the elements.  Many multiples of one element
are computed from a table of some of them.
-/

namespace Beaver.Transfer

/-- A group with encodings of its elements. -/
structure Group where
  Element : Type
  /-- Multiples of one element. -/
  Table : Type
  add : Element → Element → Element
  sub : Element → Element → Element
  /-- A multiple of an element. -/
  scale : Nat → Element → Element
  /-- The table of an element. -/
  table : Element → Table
  /-- A multiple of the element of a table. -/
  multiple : Table → Nat → Element
  /-- The table of the generator. -/
  generator : Table
  /-- The factor that 64 random bytes stand for. -/
  factor : Bytes → Nat
  encode : Element → Bytes
  decode? : Bytes → Option Element

end Beaver.Transfer
