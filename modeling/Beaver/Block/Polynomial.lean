import Beaver.Block

/-!
# Blocks as polynomials over GF(2)

Bit `i` of a block is the coefficient of `X^i`.  A product of two blocks has 256
coefficients and comes as a low and a high half; reducing it modulo
`X^128 + X^7 + X^2 + X + 1` gives the field GF(2^128).  Product and reduction are
separate, because the correlation check of the transfer extension compares
products that have not been reduced.
-/

namespace Beaver.Block

/-- Doubles a 128-bit accumulator once per remaining bit of `b`, from the top
bit down, and adds `a` wherever the bit is set. -/
def clmulWordLoop (a : UInt64) : Nat → UInt64 → UInt64 → UInt64 → UInt64 × UInt64
  | 0, _, lo, hi => (lo, hi)
  | n + 1, b, lo, hi =>
    let hi := (hi <<< 1) ||| (lo >>> 63)
    let lo := if b >>> 63 == 1 then (lo <<< 1) ^^^ a else lo <<< 1
    clmulWordLoop a n (b <<< 1) lo hi

/-- The carry-less product of two words, as its low and high word. -/
def clmulWord (a b : UInt64) : UInt64 × UInt64 :=
  clmulWordLoop a 64 b 0 0

/-- The carry-less product of two blocks, as its low and high block. -/
def clmul (a b : Block) : Block × Block :=
  let (ll, lh) := clmulWord a.lo b.lo
  let (hl, hh) := clmulWord a.hi b.hi
  let (ml, mh) := clmulWord a.lo b.hi
  let (nl, nh) := clmulWord a.hi b.lo
  (⟨ll, lh ^^^ ml ^^^ nl⟩, ⟨hl ^^^ mh ^^^ nh, hh⟩)

/-- The field polynomial without its leading term, `X^7 + X^2 + X + 1`. -/
def tail : UInt64 := 0b10000111

/-- The remainder of `low + high * X^128` modulo the field polynomial, by folding:
`X^128` is congruent to `tail`.  The upper word of `high` is folded first, and what
that pushes past `X^127` once more; the lower word comes last. -/
def gfReduce (low high : Block) : Block :=
  let (foldLo, foldHi) := clmulWord high.hi tail
  let (overLo, overHi) := clmulWord foldHi tail
  let (restLo, restHi) := clmulWord high.lo tail
  ⟨low.lo ^^^ overLo ^^^ restLo, low.hi ^^^ foldLo ^^^ overHi ^^^ restHi⟩

/-- Multiplication in GF(2^128). -/
def gfMul (a b : Block) : Block :=
  let (low, high) := clmul a b
  gfReduce low high

/-- Multiplies `acc` by the power `base ^ e`, by squaring. -/
def gfPowLoop (acc base : Block) (e : Nat) : Block :=
  if e = 0 then acc
  else gfPowLoop (if e % 2 = 1 then gfMul acc base else acc) (gfMul base base) (e / 2)
termination_by e
decreasing_by omega

/-- Exponentiation in GF(2^128). -/
def gfPow (b : Block) (e : Nat) : Block :=
  gfPowLoop one b e

/-- The inverse in GF(2^128), which is the power `2^128 - 2`; zero has none. -/
def gfInverse? (b : Block) : Option Block :=
  if b = zero then none else some (gfPow b (Nat.pow 2 128 - 2))

end Beaver.Block
