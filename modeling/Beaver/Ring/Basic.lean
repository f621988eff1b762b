import Beaver.Block
import Beaver.Random.Words

/-!
# Rings to share values in

What the protocols need of a ring: its arithmetic, how many bits an element has
and what the powers of two are, how an element is written in bytes, and how one is
drawn.  An element is known by the integer that represents it.
-/

namespace Beaver

/-- A ring that values or their authentication tags are shared in. -/
class ShareRing (α : Type) extends Add α, Sub α, Mul α, Neg α, Zero α, One α where
  decEq : DecidableEq α
  /-- Number of bits of an element. -/
  bits : Nat
  /-- Number of bytes of an encoded element. -/
  bytes : Nat
  /-- Short name, used in the names and headers of files. -/
  name : String
  /-- Name used in messages. -/
  label : String
  /-- The representing integer. -/
  toNat : α → Nat
  /-- The element that an integer of the machine width stands for. -/
  ofNat : Nat → α
  /-- The element that an integer represents; other integers represent none. -/
  ofNat? : Nat → Option α
  /-- The element that bit `i` stands for, as far as the machine width reaches. -/
  basis? : Nat → Option α
  /-- The element that a random block stands for. -/
  ofBlock : Block → α
  /-- How an element is drawn. -/
  sampling : Sampling

namespace ShareRing

variable {α : Type} [ShareRing α]

instance (priority := low) : DecidableEq α := decEq

/-- Bit `i` of the representing integer. -/
def bit (x : α) (i : Nat) : Bool :=
  (toNat x).testBit i

/-- The element that bit `i` stands for. -/
def basis (i : Nat) : α :=
  (basis? i).getD 0

/-- The element itself for a set bit and zero for a clear one. -/
def scale (x : α) (c : Bool) : α :=
  if c then x else 0

/-- The sum of a list. -/
def sum (xs : List α) : α :=
  xs.foldl (· + ·) 0

/-- The sum of the elements that the set bits stand for. -/
def ofBits (bs : List Bool) : α :=
  sum ((bs.zipIdx.filter (·.1)).map fun p => basis p.2)

/-- The bytes of an element, least significant first. -/
def encode (x : α) : Bytes :=
  Bytes.ofNatLE (bytes α) (toNat x)

/-- The element with the given encoding, which has to be complete and canonical. -/
def decode? (bs : Bytes) : Option α :=
  if bs.length = bytes α then ofNat? (Bytes.toNatLE bs) else none

/-- Draws until the low bits represent an element, at most `attempts` times. -/
def sample? {σ : Type} [WordSource σ] : Nat → σ → Option (α × σ)
  | 0, _ => none
  | attempts + 1, s => do
      let (x, s) ← (sampling α).draw? s
      match ofNat? (x % Nat.pow 2 (bits α)) with
      | some a => some (a, s)
      | none => sample? attempts s

/-- Draws an element.  A prime field rejects one bit pattern in all, so that even
the second attempt is all but never needed. -/
def sample {γ : Type} [WordGenerator γ] (s : WordBuffer γ) : α × WordBuffer γ :=
  (sample? 128 s).getD (0, s)

/-- Draws `n` elements. -/
def samples {γ : Type} [WordGenerator γ] : Nat → WordBuffer γ → List α × WordBuffer γ
  | 0, s => ([], s)
  | n + 1, s =>
    let (x, s) := sample s
    let (xs, s) := samples n s
    (x :: xs, s)

/-- Draws an element from words given in advance, which may run dry. -/
def sampleWords? (ws : List UInt64) : Option α :=
  (sample? (ws.length + 1) (WordList.mk ws)).map (·.1)

end ShareRing

/-- A ring in which every element but zero can be inverted. -/
class ShareField (α : Type) extends ShareRing α where
  /-- The inverse; zero has none. -/
  inverse? : α → Option α

/-- A field of odd characteristic with a known square root of each square. -/
class RootField (α : Type) extends ShareField α where
  /-- A square root, if there is one. -/
  sqrt? : α → Option α

/-- Values in `τ` are authenticated by tags in `μ`. -/
class Lift (τ μ : Type) where
  lift : τ → μ

/-- A ring authenticates its own elements. -/
instance {α : Type} : Lift α α := ⟨id⟩

end Beaver
