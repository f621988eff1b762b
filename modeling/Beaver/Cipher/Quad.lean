import Beaver.Bytes

/-!
# Four words side by side

The hash and the stream cipher both work on a square of sixteen 32-bit words,
held as four rows.  One step changes whole rows at once; turning the rows against
each other turns a step on the columns into a step on the diagonals.
-/

namespace Beaver

/-- A row of four words. -/
structure Quad where
  w0 : UInt32
  w1 : UInt32
  w2 : UInt32
  w3 : UInt32
  deriving DecidableEq

namespace Quad

/-- Word by word addition. -/
@[inline]
def add (a b : Quad) : Quad :=
  ⟨a.w0 + b.w0, a.w1 + b.w1, a.w2 + b.w2, a.w3 + b.w3⟩

/-- Word by word exclusive or. -/
@[inline]
def xor (a b : Quad) : Quad :=
  ⟨a.w0 ^^^ b.w0, a.w1 ^^^ b.w1, a.w2 ^^^ b.w2, a.w3 ^^^ b.w3⟩

/-- Rotation of a word towards its top bit. -/
@[inline]
def rotateWord (x n : UInt32) : UInt32 :=
  (x <<< n) ||| (x >>> (32 - n))

/-- Word by word rotation towards the top bit. -/
@[inline]
def rotate (a : Quad) (n : UInt32) : Quad :=
  ⟨rotateWord a.w0 n, rotateWord a.w1 n, rotateWord a.w2 n, rotateWord a.w3 n⟩

/-- The row turned by one place. -/
@[inline]
def turn1 (a : Quad) : Quad := ⟨a.w1, a.w2, a.w3, a.w0⟩

/-- The row turned by two places. -/
@[inline]
def turn2 (a : Quad) : Quad := ⟨a.w2, a.w3, a.w0, a.w1⟩

/-- The row turned by three places. -/
@[inline]
def turn3 (a : Quad) : Quad := ⟨a.w3, a.w0, a.w1, a.w2⟩

/-- The words in order. -/
def toList (a : Quad) : List UInt32 := [a.w0, a.w1, a.w2, a.w3]

end Quad

/-- The 32-bit words of a byte string, each least significant byte first; bytes
that do not fill a word are left out. -/
def wordsOfBytes : Bytes → List UInt32
  | b0 :: b1 :: b2 :: b3 :: rest =>
    (b0.toUInt32 ||| (b1.toUInt32 <<< 8) ||| (b2.toUInt32 <<< 16) ||| (b3.toUInt32 <<< 24)) ::
      wordsOfBytes rest
  | _ => []

/-- The four bytes of a word, least significant first. -/
def bytesOfWord (w : UInt32) : Bytes :=
  [w.toUInt8, (w >>> 8).toUInt8, (w >>> 16).toUInt8, (w >>> 24).toUInt8]

/-- The bytes of a list of words, each least significant byte first. -/
def bytesOfWords (ws : List UInt32) : Bytes :=
  ws.flatMap bytesOfWord

@[simp]
theorem length_bytesOfWords (ws : List UInt32) : (bytesOfWords ws).length = 4 * ws.length := by
  induction ws with
  | nil => rfl
  | cons w ws ih =>
    have hsplit : bytesOfWords (w :: ws) = bytesOfWord w ++ bytesOfWords ws := rfl
    rw [hsplit, List.length_append, ih, List.length_cons]
    show 4 + 4 * ws.length = 4 * (ws.length + 1)
    omega

end Beaver
