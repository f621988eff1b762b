import Beaver.BitMatrix.Square
import Beaver.BitString

/-!
# Transposing packed matrices

A matrix of bits may also come as bytes, row after row, with the first column of
every eight in the lowest place.  There are two ways to transpose it.  One takes 16
rows and 8 columns at a time and collects the top bits of 16 bytes; the other cuts
the matrix into squares.  They agree wherever both apply.  Bytes that are read or
written have to be there.
-/

namespace Beaver.Transpose

/-- The `n` bytes from an index on. -/
def slice? (input : Array UInt8) (start n : Nat) : Option Bytes :=
  if start + n ≤ input.size then some (input.extract start (start + n)).toList else none

/-- Replaces the bytes from an index on. -/
def write (out : Array UInt8) (start : Nat) : Bytes → Array UInt8
  | [] => out
  | b :: bs => write (out.setIfInBounds start b) (start + 1) bs

/-- Replaces the bytes from an index on, all of which have to be there. -/
def write? (out : Array UInt8) (start : Nat) (bs : Bytes) : Option (Array UInt8) :=
  if start + bs.length ≤ out.size then some (write out start bs) else none

/-- The top bits of the 16 bytes of a block, as two bytes. -/
def topBits (b : Block) : Bytes :=
  BitString.pack ((List.range 16).map fun i => b.bit (8 * i + 7))

/-- Each half shifted up by one place.  What moves into the next byte never reaches
its top in eight steps. -/
def shiftBytes (b : Block) : Block :=
  ⟨b.lo <<< 1, b.hi <<< 1⟩

/-- Writes the pieces of `n` output rows, the last column first. -/
def putColumns (rows row col : Nat) : Nat → Block → Array UInt8 → Option (Array UInt8)
  | 0, _, out => some out
  | n + 1, v, out => do
      let out ← write? out ((col + n) * rows / 8 + row / 8) (topBits v)
      putColumns rows row col n (shiftBytes v) out

/-- The bytes of 16 rows in one column of bytes. -/
def column? (input : Array UInt8) (cols row col : Nat) : Option Block := do
  let bs ← (List.range 16).mapM fun i => input[(row + i) * cols / 8 + col / 8]?
  some (Block.ofBytes bs)

/-- Transposes 16 rows and 8 columns at a time.  The number of rows has to be a
positive multiple of 16 and divide the input, with at least 16 columns; output past
the result is left as it is, and an output that is too short is a fault. -/
def byColumns? (input out : Array UInt8) (rows : Nat) : Option (Array UInt8) :=
  let cols := input.size * 8 / rows
  if rows ≥ 16 ∧ rows % 16 = 0 ∧ input.size % rows = 0 ∧ cols ≥ 16 ∧ cols % 8 = 0 then
    (List.range (rows / 16)).foldlM (fun out r =>
      (List.range (cols / 8)).foldlM (fun out c => do
        let v ← column? input cols (16 * r) (8 * c)
        putColumns rows (16 * r) (8 * c) 8 v out) out) out
  else none

/-- The number of bytes that square `j` of a row of squares takes of each row. -/
def widthAt (cols j : Nat) : Nat :=
  min (cols - j * 128) 128 / 8

/-- Square `(i, j)` of the matrix, with zeros past the last column. -/
def squareAt? (input : Array UInt8) (cols i j : Nat) : Option Square := do
  let rows ← (List.range 128).mapM fun k =>
    slice? input ((i * 128 + k) * (cols / 8) + j * 16) (widthAt cols j)
  some (.ofRows (rows.map Block.ofBytes).toArray)

/-- Writes the first `n` rows of a square to where square `(j, i)` of the output is. -/
def putSquare? (rows i j n : Nat) (s : Square) (out : Array UInt8) : Option (Array UInt8) :=
  (List.range n).foldlM (fun out k => do
    let row ← s.row? k
    write? out ((j * 128 + k) * (rows / 8) + i * 16) row.toBytes) out

/-- Transposes a square at a time. -/
def squares? (input out : Array UInt8) (rows : Nat) : Option (Array UInt8) :=
  let cols := input.size * 8 / rows
  (List.range (rows / 128)).foldlM (fun out i =>
    (List.range ((cols + 127) / 128)).foldlM (fun out j => do
      let s ← squareAt? input cols i j
      putSquare? rows i j (widthAt cols j * 8) s.transpose out) out) out

/-- What has to hold of a matrix that is transposed square by square: the number of rows
is a positive multiple of 128 and divides the input, there are at least 16 columns, and
the output is as long as the input. -/
def Accepts (input out : Array UInt8) (rows : Nat) : Prop :=
  input.size = out.size ∧ rows ≥ 128 ∧ input.size % rows = 0 ∧ rows % 128 = 0 ∧
    input.size * 8 / rows % 8 = 0 ∧ input.size * 8 / rows ≥ 16

instance decidableAccepts (input out : Array UInt8) (rows : Nat) :
    Decidable (Accepts input out rows) :=
  (inferInstance : Decidable (_ ∧ _))

/-- Transposes a square at a time, if the matrix has the shape for it. -/
def bySquares? (input out : Array UInt8) (rows : Nat) : Option (Array UInt8) :=
  if Accepts input out rows then squares? input out rows else none

end Beaver.Transpose
