import Mathlib
import Beaver.Proofs.Transpose.Columns

/-!
# Transposing by squares

A square of 128 rows and 128 columns is read with zeros past the last column, transposed in
registers and written out: as many rows of it as there are columns of the matrix left, each of
them a piece of 16 bytes (`exists_putSquare`).  All squares together fill the output as far as
the input reaches (`exists_squares`).  Pieces by columns fill the same places, so the two ways
agree (`squares_agree`).
-/

namespace Beaver.Transpose

open List

theorem widthAt_eq (width j : Nat) : widthAt (8 * width) j = min (width - 16 * j) 16 := by
  unfold widthAt
  omega

section Squares

variable {input : Array UInt8} {squares width i j : Nat}

theorem slice?_eq {start n : Nat} (h : start + n ≤ input.size) :
    slice? input start n = some (input.extract start (start + n)).toList :=
  if_pos h

theorem bit_slice {start n t : Nat} (ht : t < 8 * n) (h : start + n ≤ input.size) :
    Bytes.bit (input.extract start (start + n)).toList t
      = ((input[start + t / 8]?).map fun b => b.toNat.testBit (t % 8)).getD false := by
  have hbyte : (input.extract start (start + n)).toList[t / 8]? = input[start + t / 8]? := by
    rw [Array.getElem?_toList, Array.getElem?_extract, if_pos (by omega)]
  rw [Bytes.bit, hbyte]

/-- Square `(i, j)` has the bits of the matrix as far as its columns reach. -/
theorem exists_squareAt (hsize : input.size = 128 * squares * width) (hi : i < squares)
    (hj : 16 * j < width) :
    ∃ s, squareAt? input (8 * width) i j = some s ∧
      ∀ k (hk : k < 128), ∀ t < 8 * widthAt (8 * width) j,
        s.rows[k].bit t = bitAt input width (128 * i + k) (128 * j + t) := by
  have hn := widthAt_eq width j
  have hstride : 8 * width / 8 = width := by omega
  have hroom : ∀ k < 128, (i * 128 + k) * width + j * 16 + widthAt (8 * width) j ≤ input.size := by
    intro k hk
    have hrow : i * 128 + k < 128 * squares := by omega
    have hfit : j * 16 + widthAt (8 * width) j ≤ width := by omega
    have hle := place_le hrow hfit
    omega
  have hslices : ∀ k ∈ range 128,
      slice? input ((i * 128 + k) * (8 * width / 8) + j * 16) (widthAt (8 * width) j)
        = some (input.extract ((i * 128 + k) * width + j * 16)
            ((i * 128 + k) * width + j * 16 + widthAt (8 * width) j)).toList := by
    intro k hk
    rw [hstride]
    exact slice?_eq (hroom k (mem_range.mp hk))
  refine ⟨.ofRows (((range 128).map fun k =>
    (input.extract ((i * 128 + k) * width + j * 16)
      ((i * 128 + k) * width + j * 16 + widthAt (8 * width) j)).toList).map Block.ofBytes).toArray,
    ?_, ?_⟩
  · rw [squareAt?, mapM_eq_some hslices]
    rfl
  · intro k hk t ht
    have hbyte : (i * 128 + k) * width + j * 16 + t / 8
        = (128 * i + k) * width + (128 * j + t) / 8 := by
      rw [Nat.mul_comm i 128]
      omega
    have hmod : (128 * j + t) % 8 = t % 8 := by omega
    have hrow := bit_slice ht (hroom k hk)
    rw [hbyte] at hrow
    rw [bitAt, hmod, ← hrow, ← Block.bit_ofBytes _ (by omega)]
    simp [Square.ofRows]

/-- **A square of the output.**  Row `k` of the transposed square is a piece of column
`128 * j + k` of the matrix. -/
theorem exists_putSquare (hsize : input.size = 128 * squares * width) (hi : i < squares)
    {s : Square} (hs : ∀ k (hk : k < 128), ∀ t < 8 * widthAt (8 * width) j,
      s.rows[k].bit t = bitAt input width (128 * i + k) (128 * j + t))
    (out : Array UInt8) (hout : input.size ≤ out.size) :
    ∃ filled,
      putSquare? (128 * squares) i j (widthAt (8 * width) j * 8) s.transpose out = some filled ∧
      Fills (Transposed input width (16 * squares))
        (fun p => ∃ k ∈ range (widthAt (8 * width) j * 8), p / (16 * squares) = j * 128 + k ∧
          16 * i ≤ p % (16 * squares) ∧ p % (16 * squares) < 16 * i + 16) out filled := by
  have hn := widthAt_eq width j
  apply Fills.exists_loop (n := out.size) _ rfl
  intro k hk o ho
  have hk := mem_range.mp hk
  have hlt : k < 128 := by omega
  have hlength := Block.length_toBytes s.transpose.rows[k]
  have hstart : (j * 128 + k) * (128 * squares / 8) + i * 16
      = (j * 128 + k) * (16 * squares) + 16 * i := by
    have hheight : 128 * squares / 8 = 16 * squares := by omega
    rw [hheight, Nat.mul_comm i 16]
  have hroom : (j * 128 + k) * (16 * squares) + 16 * i + 16 ≤ o.size := by
    have hcol : j * 128 + k < 8 * width := by omega
    have hfit : 16 * i + 16 ≤ 16 * squares := by omega
    have hle := place_le hcol hfit
    have hall : 8 * width * (16 * squares) = 128 * squares * width := by ring
    omega
  have hbits : ∀ t < 8 * s.transpose.rows[k].toBytes.length,
      Bytes.bit s.transpose.rows[k].toBytes t
        = bitAt input width (8 * (16 * i) + t) (j * 128 + k) := by
    intro t ht
    have ht : t < 128 := by omega
    have hrow : 8 * (16 * i) + t = 128 * i + t := by omega
    rw [Block.bit_toBytes_self _ ht, s.bit_transpose hlt ht, hs t ht k (by omega), hrow,
      Nat.mul_comm j 128]
  obtain ⟨filled, hfilled, hfills⟩ := exists_piece hstart (by omega)
    (by rw [hlength, hstart]; exact hroom) hbits
  rw [hlength] at hfills
  refine ⟨filled, ?_, hfills⟩
  rw [Square.row?_eq hlt]
  exact hfilled

/-- **All squares fill the output as far as the input reaches.** -/
theorem exists_squares (hsquares : 0 < squares) (hsize : input.size = 128 * squares * width)
    {out : Array UInt8} (hout : input.size ≤ out.size) :
    ∃ filled, squares? input out (128 * squares) = some filled ∧
      Fills (Transposed input width (16 * squares)) (· < input.size) out filled := by
  have hcols : input.size * 8 / (128 * squares) = 8 * width := columns_eq (by omega) hsize
  have hrows : 128 * squares / 128 = squares := by omega
  have hpos : 0 < 16 * squares := by omega
  have hrow : ∀ i ∈ range squares, ∀ o : Array UInt8, o.size = out.size →
      ∃ filled, (range ((8 * width + 127) / 128)).foldlM (fun out j => do
        let s ← squareAt? input (8 * width) i j
        putSquare? (128 * squares) i j (widthAt (8 * width) j * 8) s.transpose out) o
          = some filled ∧
        Fills (Transposed input width (16 * squares))
          (fun p => ∃ j ∈ range ((8 * width + 127) / 128),
            ∃ k ∈ range (widthAt (8 * width) j * 8), p / (16 * squares) = j * 128 + k ∧
              16 * i ≤ p % (16 * squares) ∧ p % (16 * squares) < 16 * i + 16) o filled := by
    intro i hi o ho
    apply Fills.exists_loop (n := out.size) _ ho
    intro j hj o ho
    have hi := mem_range.mp hi
    have hj := mem_range.mp hj
    obtain ⟨s, hs, hbits⟩ := exists_squareAt (j := j) hsize hi (by omega)
    obtain ⟨filled, hfilled, hfills⟩ := exists_putSquare hsize hi hbits o (by omega)
    refine ⟨filled, ?_, hfills⟩
    rw [hs]
    exact hfilled
  obtain ⟨filled, hfilled, hfills⟩ := Fills.exists_loop hrow rfl
  refine ⟨filled, ?_, hfills.congr fun p => ?_⟩
  · unfold squares?
    simp only [hcols, hrows]
    exact hfilled
  · -- the column of byte `p` lies in square `p / (16 * squares) / 128` of its row
    have hall : input.size = 8 * width * (16 * squares) := by rw [hsize]; ring
    have hmodlt := Nat.mod_lt p hpos
    have hn := fun j => widthAt_eq width j
    rw [hall, ← Nat.div_lt_iff_lt_mul hpos]
    constructor
    · rintro ⟨i, -, j, hj, k, hk, hcol, -⟩
      have hk := mem_range.mp hk
      rw [hn] at hk
      omega
    · intro h
      refine ⟨p % (16 * squares) / 16, mem_range.mpr (by omega), p / (16 * squares) / 128,
        mem_range.mpr (by omega), p / (16 * squares) % 128, mem_range.mpr ?_, by omega,
        by omega, by omega⟩
      rw [hn]
      omega

end Squares

variable {input out : Array UInt8} {rows : Nat}

/-- An accepted matrix has whole squares one below the other, and at least two bytes to a row. -/
theorem Accepts.shape (h : Accepts input out rows) :
    ∃ squares width, 0 < squares ∧ 2 ≤ width ∧ rows = 128 * squares ∧
      input.size = rows * width := by
  obtain ⟨-, hrows, hdiv, hmod, -, hcols⟩ := h
  obtain ⟨squares, rfl⟩ := Nat.dvd_of_mod_eq_zero hmod
  obtain ⟨width, hsize⟩ := Nat.dvd_of_mod_eq_zero hdiv
  rw [columns_eq (by omega) hsize] at hcols
  exact ⟨squares, width, by omega, by omega, rfl, hsize⟩

/-- The squares fill what the columns fill. -/
theorem squares?_eq_byColumns? {squares width : Nat} (hsquares : 0 < squares) (hwidth : 2 ≤ width)
    (hsize : input.size = 128 * squares * width) (hout : input.size ≤ out.size) :
    squares? input out (128 * squares) = byColumns? input out (128 * squares) := by
  -- eight stripes of 16 rows to a square
  have hstripes : 128 * squares = 16 * (8 * squares) := by omega
  have hheight : 16 * squares = 2 * (8 * squares) := by omega
  obtain ⟨filled, hfilled, hfills⟩ := exists_squares hsquares hsize hout
  rw [hstripes] at hsize
  obtain ⟨filled', hfilled', hfills'⟩ := exists_byColumns (by omega) hwidth hsize hout
  rw [hheight] at hfills
  rw [hfilled, hstripes, hfilled', hfills.unique Transposed.unique hfills']

theorem bySquares?_eq (h : Accepts input out rows) :
    bySquares? input out rows = squares? input out rows :=
  if_pos h

/-- **Both ways agree.**  Every matrix that is accepted is transposed by squares in registers,
also where the last columns do not fill a square, and the output is byte for byte that of
transposing by columns. -/
theorem squares_agree (input out : Array UInt8) (rows : Nat) (h : Accepts input out rows) :
    ∃ filled, squares? input out rows = some filled ∧ bySquares? input out rows = some filled ∧
      byColumns? input out rows = some filled := by
  have hout := Nat.le_of_eq h.1
  have hchecked := bySquares?_eq h
  obtain ⟨squares, width, hsquares, hwidth, rfl, hsize⟩ := h.shape
  obtain ⟨filled, hfilled, -⟩ := exists_squares hsquares hsize hout
  refine ⟨filled, hfilled, hchecked.trans hfilled, ?_⟩
  rw [← squares?_eq_byColumns? hsquares hwidth hsize hout, hfilled]

/-- A whole square and one with eight columns beside it. -/
theorem squares_agree_ragged :
    Accepts (Array.ofFn fun i : Fin 2176 => UInt8.ofNat (i * i)) (.replicate 2176 0) 128 ∧
    ∃ filled,
      squares? (Array.ofFn fun i : Fin 2176 => UInt8.ofNat (i * i)) (.replicate 2176 0) 128
        = some filled ∧
      byColumns? (Array.ofFn fun i : Fin 2176 => UInt8.ofNat (i * i)) (.replicate 2176 0) 128
        = some filled := by
  have haccepts :
      Accepts (Array.ofFn fun i : Fin 2176 => UInt8.ofNat (i * i)) (.replicate 2176 0) 128 := by
    unfold Accepts
    rw [Array.size_ofFn, Array.size_replicate]
    decide
  obtain ⟨filled, hsquares, -, hcolumns⟩ := squares_agree _ _ _ haccepts
  exact ⟨haccepts, filled, hsquares, hcolumns⟩

end Beaver.Transpose

namespace Beaver.Square

/-- The bytes of a square are accepted, and transposing them by squares is transposing it. -/
theorem bySquares?_toBytes (s : Square) {out : Array UInt8} (hout : out.size = 2048) :
    Transpose.bySquares? s.toBytes.toArray out 128 = some s.transpose.toBytes.toArray := by
  have hsize := size_toBytes s
  have haccepts : Transpose.Accepts s.toBytes.toArray out 128 := by
    unfold Transpose.Accepts
    omega
  have hagree := Transpose.squares?_eq_byColumns? Nat.one_pos (Nat.le_add_left 2 14) hsize
    (Nat.le_of_eq haccepts.1)
  rw [Transpose.bySquares?_eq haccepts]
  exact hagree.trans (byColumns?_toBytes s hout)

end Beaver.Square
