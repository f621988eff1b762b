import Beaver.Bytes
import Beaver.Cipher.Quad

/-!
# Sources of random words

A generator produces 32-bit words a whole refill at a time.  A buffer hands them
out one by one and refills when it is empty; no word is ever handed out twice.
Wider draws are made of words, the least significant first.

A fixed list of 64-bit words is a source as well, one that can run dry.
-/

namespace Beaver

/-- Something that produces its next words a refill at a time. -/
class WordGenerator (γ : Type) where
  refill : γ → List UInt32 × γ

/-- A generator with the words of its last refill that are still unused. -/
structure WordBuffer (γ : Type) where
  generator : γ
  pending : List UInt32

namespace WordBuffer

variable {γ : Type} [WordGenerator γ]

/-- A buffer that has not been filled yet. -/
def ofGenerator (g : γ) : WordBuffer γ := ⟨g, []⟩

/-- The next word; an empty buffer is refilled first. -/
def next32 (b : WordBuffer γ) : UInt32 × WordBuffer γ :=
  match b.pending with
  | w :: ws => (w, { b with pending := ws })
  | [] =>
    match WordGenerator.refill b.generator with
    | (w :: ws, g) => (w, ⟨g, ws⟩)
    | ([], g) => (0, ⟨g, []⟩)

/-- The next two words as one, low half first.  The halves may come from two
refills. -/
def next64 (b : WordBuffer γ) : UInt64 × WordBuffer γ :=
  let (lo, b) := b.next32
  let (hi, b) := b.next32
  (lo.toUInt64 ||| (hi.toUInt64 <<< 32), b)

/-- The next `n` words. -/
def take : Nat → WordBuffer γ → List UInt32 × WordBuffer γ
  | 0, b => ([], b)
  | n + 1, b =>
    let (w, b) := b.next32
    let (ws, b) := take n b
    (w :: ws, b)

/-- The next `n` bytes.  They come from whole words, so what is left of the last
word is lost. -/
def takeBytes (n : Nat) (b : WordBuffer γ) : Bytes × WordBuffer γ :=
  let (ws, b) := b.take ((n + 3) / 4)
  ((bytesOfWords ws).take n, b)

@[simp]
theorem length_take (n : Nat) (b : WordBuffer γ) : (b.take n).1.length = n := by
  induction n generalizing b with
  | zero => rfl
  | succ n ih => simp [take, ih]

@[simp]
theorem length_takeBytes (n : Nat) (b : WordBuffer γ) : (b.takeBytes n).1.length = n := by
  simp only [takeBytes, List.length_take, length_bytesOfWords, length_take]
  omega

end WordBuffer

/-- A source of words that may run dry. -/
class WordSource (σ : Type) where
  next32? : σ → Option (UInt32 × σ)
  next64? : σ → Option (UInt64 × σ)

instance {γ : Type} [WordGenerator γ] : WordSource (WordBuffer γ) where
  next32? b := some b.next32
  next64? b := some b.next64

/-- Words given in advance. -/
structure WordList where
  words : List UInt64

/-- A short draw uses up a whole word and keeps its low half. -/
instance : WordSource WordList where
  next32?
    | ⟨w :: ws⟩ => some (w.toUInt32, ⟨ws⟩)
    | ⟨[]⟩ => none
  next64?
    | ⟨w :: ws⟩ => some (w, ⟨ws⟩)
    | ⟨[]⟩ => none

/-- How many random bits one attempt at drawing a ring element uses. -/
inductive Sampling where
  /-- The top bit of a 32-bit word. -/
  | coin
  /-- A 64-bit word. -/
  | word
  /-- Two 64-bit words, the low half first. -/
  | wide

/-- One attempt's random bits, as an integer. -/
def Sampling.draw? {σ : Type} [WordSource σ] (s : σ) : Sampling → Option (Nat × σ)
  | .coin => do
      let (w, s) ← WordSource.next32? s
      some ((w >>> 31).toNat, s)
  | .word => do
      let (w, s) ← WordSource.next64? s
      some (w.toNat, s)
  | .wide => do
      let (lo, s) ← WordSource.next64? s
      let (hi, s) ← WordSource.next64? s
      some (lo.toNat + Nat.pow 2 64 * hi.toNat, s)

/-- A number below `range`, which is at least 1 and fits in 32 bits.  The product
of a random word with `range` has the number in its high half; a second word
corrects the low half where it might carry. -/
def WordBuffer.below {γ : Type} [WordGenerator γ] (range : Nat) (b : WordBuffer γ) :
    Nat × WordBuffer γ :=
  let (w, b) := b.next32
  let product := w.toNat * range
  let high := product / Nat.pow 2 32
  let low := product % Nat.pow 2 32
  if low > Nat.pow 2 32 - range then
    let (w, b) := b.next32
    let carry := (low + w.toNat * range / Nat.pow 2 32) / Nat.pow 2 32
    (high + carry, b)
  else
    (high, b)

end Beaver
