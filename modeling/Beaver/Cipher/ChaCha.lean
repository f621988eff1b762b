import Beaver.Cipher.Quad

/-!
# ChaCha with twenty rounds

The stream cipher that expands a coin-tossed seed.  A block is sixteen words: a
constant row, two rows of key, and a row with the block counter, mixed by ten
double rounds and added to what went in.
-/

namespace Beaver.ChaCha

/-- The four rows of a state. -/
structure State where
  a : Quad
  b : Quad
  c : Quad
  d : Quad

/-- Mixes the four columns. -/
@[inline]
def mix (s : State) : State :=
  let a := s.a.add s.b
  let d := (s.d.xor a).rotate 16
  let c := s.c.add d
  let b := (s.b.xor c).rotate 12
  let a := a.add b
  let d := (d.xor a).rotate 8
  let c := c.add d
  let b := (b.xor c).rotate 7
  ⟨a, b, c, d⟩

/-- The columns, then the diagonals. -/
def doubleRound (s : State) : State :=
  let s := mix s
  let s := mix ⟨s.a, s.b.turn1, s.c.turn2, s.d.turn3⟩
  ⟨s.a, s.b.turn3, s.c.turn2, s.d.turn1⟩

/-- A number of double rounds. -/
def doubleRounds : Nat → State → State
  | 0, s => s
  | n + 1, s => doubleRounds n (doubleRound s)

/-- The constant row. -/
def constants : Quad := ⟨0x61707865, 0x3320646e, 0x79622d32, 0x6b206574⟩

/-- The sixteen words of the block with the given counter. -/
def block (keyLow keyHigh : Quad) (counter : UInt64) : List UInt32 :=
  let s : State := ⟨constants, keyLow, keyHigh,
    ⟨counter.toUInt32, (counter >>> 32).toUInt32, 0, 0⟩⟩
  let t := doubleRounds 10 s
  (t.a.add s.a).toList ++ (t.b.add s.b).toList ++ (t.c.add s.c).toList ++ (t.d.add s.d).toList

end Beaver.ChaCha
