import Beaver.BitMatrix.Register
import Beaver.Random.Keystream
import Beaver.Wire

/-!
# Squares of bits

A square has 128 rows of 128 bits.  It is transposed in registers that hold two rows
each.
-/

namespace Beaver

/-- 128 rows of 128 bits. -/
structure Square where
  rows : Vector Block 128
  deriving DecidableEq

namespace Square

/-- All bits clear. -/
def zero : Square := ⟨.replicate 128 .zero⟩

/-- The square with the given rows; missing ones are zero. -/
def ofRows (rows : Array Block) : Square :=
  ⟨.ofFn fun i => rows[i.val]?.getD .zero⟩

/-- Row `i`, which has to be there. -/
def row? (s : Square) (i : Nat) : Option Block :=
  s.rows[i]?

/-- The bit in row `i` and column `j`, which have to be there. -/
def get? (s : Square) (i j : Nat) : Option Bool := do
  let row ← s.row? i
  row.bit? j

/-- The square with row `i` replaced, which has to be there. -/
def setRow? (s : Square) (i : Nat) (row : Block) : Option Square :=
  if h : i < 128 then some ⟨s.rows.set i row h⟩ else none

/-- The bytes of all rows. -/
def toBytes (s : Square) : Bytes :=
  s.rows.toList.flatMap Block.toBytes

/-- Cuts bytes into blocks; a short last block is padded with zeros. -/
def blocksOf (bs : Bytes) : List Block :=
  if bs = [] then [] else Block.ofBytes bs :: blocksOf (bs.drop 16)
termination_by bs.length
decreasing_by
  have : bs.length ≠ 0 := by simp_all
  simp only [List.length_drop]
  omega

/-- The square with the given 2048 bytes. -/
def ofBytes (bs : Bytes) : Square :=
  ofRows (blocksOf bs).toArray

/-- A random square, drawn as its bytes. -/
def random (s : Keystream) : Square × Keystream :=
  let (rows, s) := s.blocks 128
  (ofRows rows.toArray, s)

/-- Adds row `j` of the other square wherever bit `j` is set. -/
def addWhere (s : Square) (choice : Block) (other : Square) : Square :=
  ⟨.ofFn fun j => s.rows[j] ^^^ other.rows[j].scale (choice.bit j)⟩

/-- Adds the other square. -/
def xor (s other : Square) : Square :=
  ⟨.zipWith (· ^^^ ·) s.rows other.rows⟩

/-- Adds one row to every row. -/
def xorRow (s : Square) (row : Block) : Square :=
  ⟨s.rows.map (· ^^^ row)⟩

/-- The rows of the square in registers, two to each. -/
def registers (s : Square) : Vector Register 64 :=
  .ofFn fun i => ⟨s.rows[2 * i.val], s.rows[2 * i.val + 1]⟩

/-- The square whose rows are in registers. -/
def ofRegisters (rs : Vector Register 64) : Square :=
  ⟨.ofFn fun i => if i.val % 2 = 0 then rs[i.val / 2].low else rs[i.val / 2].high⟩

/-- The square with rows and columns exchanged. -/
def transpose (s : Square) : Square :=
  ofRegisters (Register.transposeAll s.registers)

/-- A square is written as a list of bytes, which has to have 2048 of them. -/
def wire : Wire Square where
  encode s := Wire.count.encode 2048 ++ s.toBytes
  decode bs := do
    let (n, bs) ← Wire.count.decode bs
    let (data, bs) ← (Wire.bytes n).decode bs
    if n = 2048 then .ok (ofBytes data, bs) else .error (.square n)

end Square

end Beaver
