import Beaver.Error
import Beaver.Wire

/-!
# Rectangles of ring elements

One row in `β` for each bit of an element of `α`.  In a multiplication by
transfers the rows are the transferred elements for the bits of one factor, and
adding them up with the weights of the bits gives a share of the product.
-/

namespace Beaver

/-- One element of `β` for each bit of `α`. -/
structure Rectangle (α β : Type) [ShareRing α] where
  rows : Vector β (ShareRing.bits α)

namespace Rectangle

open ShareRing

variable {α β : Type} [ShareRing α] [ShareRing β]

/-- Two rectangles are equal if their rows are. -/
def same (r s : Rectangle α β) : Bool :=
  decide (r.rows.toList = s.rows.toList)

/-- All rows zero. -/
def zero : Rectangle α β := ⟨.replicate _ 0⟩

/-- The rectangle with the given rows, of which there have to be as many as bits. -/
def ofRows (rows : List β) : Except Error (Rectangle α β) :=
  if h : rows.toArray.size = bits α then .ok ⟨⟨rows.toArray, h⟩⟩
  else .error (.length (bits α) rows.length)

/-- The rectangle whose rows random blocks stand for. -/
def ofBlocks (blocks : List Block) : Except Error (Rectangle α β) :=
  ofRows (blocks.map ofBlock)

/-- A random rectangle, row after row. -/
def random {γ : Type} [WordGenerator γ] (s : WordBuffer γ) :
    Except Error (Rectangle α β) × WordBuffer γ :=
  let (rows, s) := samples (bits α) s
  (ofRows rows, s)

/-- Adds row `j` of the other rectangle wherever bit `j` is set. -/
def addWhere (r : Rectangle α β) (choice : α) (other : Rectangle α β) : Rectangle α β :=
  ⟨.ofFn fun j => r.rows[j] + scale other.rows[j] (bit choice j)⟩

/-- Row by row addition. -/
def add (r s : Rectangle α β) : Rectangle α β :=
  ⟨.zipWith (· + ·) r.rows s.rows⟩

/-- Row by row subtraction. -/
def sub (r s : Rectangle α β) : Rectangle α β :=
  ⟨.zipWith (· - ·) r.rows s.rows⟩

/-- The sum of the rows with the weights of their bits, as far as these fit in a
machine word. -/
def compose? (r : Rectangle α β) : Option β :=
  r.rows.toList.zipIdx.foldlM (fun acc p => (basis? p.2).map fun w => acc + w * p.1) 0

/-- The sum of the rows with the weights of their bits. -/
def compose (r : Rectangle α β) : β :=
  sum (r.rows.toList.zipIdx.map fun p => basis p.2 * p.1)

/-- Row `i` of the transpose is made of bit `i` of every row. -/
def transpose (r : Rectangle α β) : Rectangle β α :=
  ⟨.ofFn fun i => ofBits (r.rows.toList.map fun row => bit row i)⟩

/-- The number of bytes of an encoded rectangle. -/
def packedLength (α β : Type) [ShareRing α] [ShareRing β] : Nat :=
  bits α * bytes β

/-- The bytes of all rows. -/
def toBytes (r : Rectangle α β) : Bytes :=
  r.rows.toList.flatMap encode

/-- Reads `n` elements from the front. -/
def readRows : Nat → Bytes → Except Error (List β)
  | 0, _ => .ok []
  | n + 1, bs => do
      match decode? (bs.take (bytes β)) with
      | none => .error (.encoding (label β))
      | some x => (x :: ·) <$> readRows n (bs.drop (bytes β))

/-- The rectangle with the given bytes. -/
def ofBytes (bs : Bytes) : Except Error (Rectangle α β) := do
  checkLength (packedLength α β) bs.length
  let rows ← readRows (bits α) bs
  ofRows rows

/-- In a message, the list of the rows, whose number is checked at the end. -/
def wire (α β : Type) [ShareRing α] [ShareRing β] : Wire (Rectangle α β) where
  encode r := (Wire.list (Wire.element β)).encode r.rows.toList
  decode bs := do
    let (rows, rest) ← (Wire.list (Wire.element β)).decode bs
    match ofRows rows with
    | .ok r => .ok (r, rest)
    | .error _ => .error (.rows (bits α) rows.length)

end Rectangle

end Beaver
