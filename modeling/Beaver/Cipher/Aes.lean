import Beaver.Block

/-!
# AES-128

The block cipher behind the keystreams and behind the tweaked hash.  Only
encryption is needed.  The state is four columns of four bytes; a column is a
32-bit word whose low byte is the first row.  One table lookup per byte does the
substitution and the column mixing of a round together.
-/

namespace Beaver.Aes

/-- Multiplication by `X` in GF(2^8) with the modulus `X^8 + X^4 + X^3 + X + 1`. -/
def double (x : UInt8) : UInt8 :=
  if x &&& 0x80 == 0 then x <<< 1 else (x <<< 1) ^^^ 0x1b

/-- Multiplication in GF(2^8), over the lowest `n` bits of `b`. -/
def mulBits : Nat → UInt8 → UInt8 → UInt8
  | 0, _, _ => 0
  | n + 1, a, b => (if b &&& 1 == 1 then a else 0) ^^^ mulBits n (double a) (b >>> 1)

/-- The `n`-th power of a byte in GF(2^8). -/
def power (x : UInt8) : Nat → UInt8
  | 0 => 1
  | n + 1 => mulBits 8 x (power x n)

/-- Rotation of a byte towards its top bit. -/
def rotateByte (x : UInt8) (n : UInt8) : UInt8 :=
  (x <<< n) ||| (x >>> (8 - n))

/-- The substitution: the inverse in GF(2^8) followed by an affine map. -/
def substitute (x : UInt8) : UInt8 :=
  let y := power x 254
  y ^^^ rotateByte y 1 ^^^ rotateByte y 2 ^^^ rotateByte y 3 ^^^ rotateByte y 4 ^^^ 0x63

/-- The substitution, tabulated. -/
def substitution : Array UInt8 :=
  (Array.range 256).map fun i => substitute (UInt8.ofNat i)

/-- What a first-row byte contributes to a column: its substitution, mixed. -/
def mixing : Array UInt32 :=
  substitution.map fun s =>
    let s2 := double s
    s2.toUInt32 ||| (s.toUInt32 <<< 8) ||| (s.toUInt32 <<< 16) ||| ((s2 ^^^ s).toUInt32 <<< 24)

/-- The four columns of a state or of a round key. -/
structure State where
  c0 : UInt32
  c1 : UInt32
  c2 : UInt32
  c3 : UInt32

/-- Byte `i` of a column. -/
@[inline]
def byteAt (c : UInt32) (i : UInt32) : Nat :=
  ((c >>> (8 * i)) &&& 0xff).toNat

/-- Rotation of a column towards its last row. -/
@[inline]
def rotate (c : UInt32) (n : UInt32) : UInt32 :=
  (c <<< n) ||| (c >>> (32 - n))

/-- The substitution of one byte, as a column with that byte in the first row. -/
@[inline]
def sub (b : Nat) : UInt32 :=
  (substitution.getD b 0).toUInt32

/-- One column of the next state, from the columns its rows are shifted in from. -/
@[inline]
def mixColumn (a b c d key : UInt32) : UInt32 :=
  mixing.getD (byteAt a 0) 0 ^^^ rotate (mixing.getD (byteAt b 1) 0) 8 ^^^
    rotate (mixing.getD (byteAt c 2) 0) 16 ^^^ rotate (mixing.getD (byteAt d 3) 0) 24 ^^^ key

/-- One column of the last state, where nothing is mixed. -/
@[inline]
def lastColumn (a b c d key : UInt32) : UInt32 :=
  (sub (byteAt a 0) ||| (sub (byteAt b 1) <<< 8) ||| (sub (byteAt c 2) <<< 16) |||
    (sub (byteAt d 3) <<< 24)) ^^^ key

/-- A full round. -/
def round (s key : State) : State where
  c0 := mixColumn s.c0 s.c1 s.c2 s.c3 key.c0
  c1 := mixColumn s.c1 s.c2 s.c3 s.c0 key.c1
  c2 := mixColumn s.c2 s.c3 s.c0 s.c1 key.c2
  c3 := mixColumn s.c3 s.c0 s.c1 s.c2 key.c3

/-- The last round. -/
def lastRound (s key : State) : State where
  c0 := lastColumn s.c0 s.c1 s.c2 s.c3 key.c0
  c1 := lastColumn s.c1 s.c2 s.c3 s.c0 key.c1
  c2 := lastColumn s.c2 s.c3 s.c0 s.c1 key.c2
  c3 := lastColumn s.c3 s.c0 s.c1 s.c2 key.c3

/-- The columns of a block. -/
def State.ofBlock (b : Block) : State :=
  ⟨b.lo.toUInt32, (b.lo >>> 32).toUInt32, b.hi.toUInt32, (b.hi >>> 32).toUInt32⟩

/-- The block of four columns. -/
def State.toBlock (s : State) : Block :=
  ⟨s.c0.toUInt64 ||| (s.c1.toUInt64 <<< 32), s.c2.toUInt64 ||| (s.c3.toUInt64 <<< 32)⟩

/-- The round keys: one to start with, one for each full round, one for the last. -/
structure Schedule where
  start : State
  rounds : List State
  last : State

/-- The round key after `k`, with the round constant `rcon`. -/
def nextKey (k : State) (rcon : UInt8) : State :=
  let t := sub (byteAt k.c3 1) ||| (sub (byteAt k.c3 2) <<< 8) ||| (sub (byteAt k.c3 3) <<< 16) |||
    (sub (byteAt k.c3 0) <<< 24)
  let c0 := k.c0 ^^^ t ^^^ rcon.toUInt32
  let c1 := k.c1 ^^^ c0
  let c2 := k.c2 ^^^ c1
  ⟨c0, c1, c2, k.c3 ^^^ c2⟩

/-- The next `n` round keys after `k`, the last of them apart. -/
def expand : Nat → State → UInt8 → List State × State
  | 0, k, rcon => ([], nextKey k rcon)
  | n + 1, k, rcon =>
    let next := nextKey k rcon
    let (keys, last) := expand n next (double rcon)
    (next :: keys, last)

/-- The round keys of a cipher key. -/
def Schedule.ofKey (key : Block) : Schedule :=
  let start := State.ofBlock key
  let (rounds, last) := expand 9 start 1
  ⟨start, rounds, last⟩

/-- Encrypts one block. -/
def encrypt (keys : Schedule) (b : Block) : Block :=
  let s := State.ofBlock b
  let k := keys.start
  let s : State := ⟨s.c0 ^^^ k.c0, s.c1 ^^^ k.c1, s.c2 ^^^ k.c2, s.c3 ^^^ k.c3⟩
  (lastRound (keys.rounds.foldl round s) keys.last).toBlock

end Beaver.Aes
