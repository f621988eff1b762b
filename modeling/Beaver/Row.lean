import Beaver.Capacity
import Beaver.Cipher.Digest
import Beaver.Error
import Beaver.Random.Keystream
import Beaver.Wire

/-!
# Rows of ring elements

One column of a vector product is a row of elements.  Rows of different lengths
meet on their common front: an update leaves the rest of the changed row as it is,
and a sum that is only formed has no rest.
-/

namespace Beaver

/-- A list of ring elements. -/
structure Row (α : Type) where
  values : List α

namespace Row

open ShareRing

variable {α : Type} [ShareRing α]

/-- Zeros. -/
def zeros (n : Nat) : Row α := ⟨List.replicate n 0⟩

/-- The next `n` elements that the blocks of a stream stand for. -/
def random (n : Nat) (s : Keystream) : Row α × Keystream :=
  let (bs, s) := s.blocks n
  (⟨bs.map ofBlock⟩, s)

/-- Zeros, if memory has room for them. -/
def zeros? (n : Nat) : Option (Row α) :=
  (room? n (bytes α)).map zeros

/-- Random elements, if memory has room for them. -/
def random? (n : Nat) (s : Keystream) : Option (Row α × Keystream) :=
  (room? n (bytes α)).map (random · s)

/-- Changes the elements that have a partner in the other row. -/
def update (f : α → α → α) (a b : Row α) : Row α :=
  ⟨List.zipWith f a.values b.values ++ a.values.drop b.values.length⟩

/-- Adds the other row if the bit is set. -/
def addIf (c : Bool) (a b : Row α) : Row α :=
  update (fun x y => x + scale y c) a b

/-- Adds a multiple of the other row. -/
def addMultiple (c : α) (a b : Row α) : Row α :=
  update (fun x y => x + c * y) a b

/-- Adds the other row. -/
def add (a b : Row α) : Row α :=
  update (· + ·) a b

/-- Subtracts the other row. -/
def sub (a b : Row α) : Row α :=
  update (· - ·) a b

/-- The sum on the common front. -/
def plus (a b : Row α) : Row α :=
  ⟨List.zipWith (· + ·) a.values b.values⟩

/-- The difference on the common front. -/
def minus (a b : Row α) : Row α :=
  ⟨List.zipWith (· - ·) a.values b.values⟩

/-- The encoded elements. -/
def packed (a : Row α) : Bytes :=
  a.values.flatMap encode

/-- The digest of the encoded elements. -/
def hash (a : Row α) : Bytes :=
  Digest.hash a.packed

/-- The number of elements, then the encoded elements. -/
def toBytes (a : Row α) : Bytes :=
  Bytes.ofNatLE 8 a.values.length ++ a.packed

/-- Reads `n` elements from the front. -/
def readMany : Nat → Bytes → Except Error (List α)
  | 0, _ => .ok []
  | n + 1, bs => do
      match decode? (bs.take (bytes α)) with
      | none => .error (.encoding (label α))
      | some x => (x :: ·) <$> readMany n (bs.drop (bytes α))

/-- Reads a row from the front and says how many bytes it took. -/
def read (bs : Bytes) : Except Error (Row α × Nat) := do
  let invalid := Error.encoding "Row"
  let header := bs.take 8
  if header.length ≠ 8 then throw invalid
  let n := Bytes.toNatLE header
  let size := 8 + n * bytes α
  if size ≥ Nat.pow 2 64 ∨ bs.length < size then throw invalid
  let values ← readMany n (bs.drop 8)
  .ok (⟨values⟩, size)

/-- In a message, the list of the elements. -/
def wire (α : Type) [ShareRing α] : Wire (Row α) :=
  (Wire.list (Wire.element α)).map mk values

end Row

end Beaver
