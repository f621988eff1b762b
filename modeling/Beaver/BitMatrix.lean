import Beaver.BitMatrix.Square
import Beaver.BitString
import Beaver.Capacity

/-!
# Stacks of squares

The matrix of a transfer extension is a stack of squares.  It is filled by
columns, one random stream for each of the 128 base transfers, and then transposed
square by square; after that, row `l` of the stack belongs to transfer `l`.
-/

namespace Beaver

/-- A matrix with 128 columns, as a stack of squares. -/
structure BitMatrix where
  squares : List Square
  deriving DecidableEq

namespace BitMatrix

/-- No rows. -/
def empty : BitMatrix := ⟨[]⟩

/-- A zero matrix with at least so many rows. -/
def zeros (rows : Nat) : BitMatrix :=
  ⟨List.replicate ((rows + 127) / 128) .zero⟩

/-- A zero matrix with at least so many rows, if memory has room for its squares. -/
def zeros? (rows : Nat) : Option BitMatrix :=
  (room? ((rows + 127) / 128) 2048).map fun _ => zeros rows

/-- The number of rows. -/
def height (m : BitMatrix) : Nat :=
  m.squares.length * 128

/-- All rows in order. -/
def rows (m : BitMatrix) : List Block :=
  m.squares.flatMap fun s => s.rows.toList

/-- Row `l`, which has to be there. -/
def row? (m : BitMatrix) (l : Nat) : Option Block := do
  let s ← m.squares[l / 128]?
  s.row? (l % 128)

/-- The squares from `lo` up to `hi`. -/
def slice (m : BitMatrix) (lo hi : Nat) : Except Error (List Square) :=
  if lo ≤ hi ∧ hi ≤ m.squares.length then .ok ((m.squares.drop lo).take (hi - lo))
  else .error (.misuse .slice)

/-- The next `n` blocks of every stream. -/
def columns (n : Nat) (streams : List Keystream) : List (List Block) × List Keystream :=
  (streams.map (·.blocks n)).unzip

/-- Square `i` of the given columns. -/
def squareOf (columns : Array (Array Block)) (i : Nat) : Square :=
  ⟨.ofFn fun j => (columns[j.val]?.bind (·[i]?)).getD .zero⟩

/-- The matrix of the same size whose row `j` in every square comes from stream
`j`. -/
def expand (m : BitMatrix) (streams : List Keystream) :
    Except Error (BitMatrix × List Keystream) := do
  checkLength 128 streams.length
  let n := m.squares.length
  let (blocks, streams) := columns n streams
  let blocks := (blocks.map List.toArray).toArray
  .ok (⟨(List.range n).map (squareOf blocks)⟩, streams)

/-- Adds the choice bits to every row: square `s` gets bits `128 * s` and
following. -/
def xorChoices (m : BitMatrix) (choices : BitString) : Except Error BitMatrix := do
  checkLength m.height choices.length
  .ok ⟨List.zipWith Square.xorRow m.squares (BitString.blocks m.squares.length choices.bytes)⟩

/-- Adds row `j` of every square of the other matrix wherever bit `j` is set. -/
def addWhere (m : BitMatrix) (choice : Block) (other : BitMatrix) : Except Error BitMatrix := do
  checkLength m.squares.length other.squares.length
  .ok ⟨List.zipWith (fun s o => s.addWhere choice o) m.squares other.squares⟩

/-- Adds the other matrix. -/
def xor (m other : BitMatrix) : Except Error BitMatrix := do
  checkLength m.squares.length other.squares.length
  .ok ⟨List.zipWith Square.xor m.squares other.squares⟩

/-- Transposes every square. -/
def transpose (m : BitMatrix) : BitMatrix :=
  ⟨m.squares.map Square.transpose⟩

/-- The number of squares, then their bytes. -/
def toBytes (m : BitMatrix) : Bytes :=
  Bytes.ofNatLE 8 m.squares.length ++ m.squares.flatMap Square.toBytes

/-- Cuts bytes into `n` squares. -/
def squaresOf : Nat → Bytes → List Square
  | 0, _ => []
  | n + 1, bs => Square.ofBytes (bs.take 2048) :: squaresOf n (bs.drop 2048)

/-- Reads a matrix from the front and says how many bytes it took. -/
def read (bs : Bytes) : Except Error (BitMatrix × Nat) := do
  let invalid := Error.encoding "BitMatrix"
  let header := bs.take 8
  if header.length ≠ 8 then throw invalid
  let n := Bytes.toNatLE header
  let size := 8 + n * 2048
  if size ≥ Nat.pow 2 64 ∨ bs.length < size then throw invalid
  .ok (⟨squaresOf n (bs.drop 8)⟩, size)

/-- In a message, a list of squares. -/
def wire : Wire BitMatrix :=
  (Wire.list Square.wire).map mk squares

end BitMatrix

end Beaver
