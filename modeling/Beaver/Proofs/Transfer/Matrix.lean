import Beaver.Proofs.PackedBits
import Beaver.Proofs.SquareTranspose
import Beaver.Transfer.Extension

/-!
# The matrices of a transfer extension

A matrix is seen through its bits: bit `j` of row `i` of square `s`.  Every operation of
the extension is described by what it does to them.  After the correction is applied,
the sender's columns are the receiver's, with the choice bits added where `delta` is
set; transposed, this is one relation for each row (`row_correlated`).  The statement
allows for an error in the correction, which adds to each row what `delta` selects of
the same row of the error.
-/

namespace Beaver.BitMatrix

open List

/-- Bit `j` of row `i` of square `s`. -/
def bitAt (m : BitMatrix) (s i j : Nat) : Bool :=
  Square.bitAt (m.squares[s]?.getD .zero).rows (i, j)

/-- Row `l` of the whole stack. -/
def rowAt (m : BitMatrix) (l : Nat) : Block :=
  (m.rows[l]?).getD .zero

@[simp]
theorem length_rows (m : BitMatrix) : m.rows.length = m.height := by
  simp [rows, height, length_flatMap, map_const']

variable {i s n : Nat} {m o : BitMatrix} {streams : List Keystream} {delta : Block}

theorem getElem?_flatMap_rows (squares : List Square) (s : Nat) (hi : i < 128) :
    (squares.flatMap fun q => q.rows.toList)[128 * s + i]?
      = (squares[s]?).bind fun q => q.rows.toList[i]? := by
  induction squares generalizing s with
  | nil => simp
  | cons q squares ih =>
    rw [flatMap_cons]
    have hlength : q.rows.toList.length = 128 := Vector.length_toList
    cases s with
    | zero =>
      rw [getElem?_append_left (by omega)]
      simp
    | succ s =>
      rw [getElem?_append_right (by omega), hlength,
        show 128 * (s + 1) + i - 128 = 128 * s + i by omega, ih s, getElem?_cons_succ]

/-- A row of the stack is a row of one of its squares. -/
theorem bit_rowAt (m : BitMatrix) (s : Nat) (hi : i < 128) (j : Nat) :
    (m.rowAt (128 * s + i)).bit j = m.bitAt s i j := by
  rw [rowAt, rows, getElem?_flatMap_rows _ _ hi, bitAt, Square.bitAt]
  cases m.squares[s]? with
  | none => simp [Square.zero, hi]
  | some q => simp

/-- Rows are equal if their bits are. -/
theorem rowAt_eq (hi : i < 128) {b : Block} (h : ∀ j < 128, m.bitAt s i j = b.bit j) :
    m.rowAt (128 * s + i) = b := by
  apply Block.ext_bit
  intro j hj
  rw [bit_rowAt m s hi j, h j hj]

/-- All rows, by their numbers. -/
theorem rows_eq_map (m : BitMatrix) : m.rows = (range m.height).map m.rowAt := by
  apply ext_getElem?
  intro l
  by_cases hl : l < m.height
  · rw [getElem?_map, getElem?_range hl, Option.map_some, rowAt,
      getElem?_eq_getElem (by rw [length_rows]; exact hl)]
    rfl
  · rw [getElem?_eq_none (by simpa using hl), getElem?_eq_none (by simpa using hl)]

@[simp]
theorem height_transpose (m : BitMatrix) : m.transpose.height = m.height := by
  simp [transpose, height]

/-- **Every square is transposed.** -/
theorem bitAt_transpose (m : BitMatrix) (hs : s < m.squares.length) {j : Nat} (hi : i < 128)
    (hj : j < 128) : m.transpose.bitAt s i j = m.bitAt s j i := by
  rw [bitAt, bitAt, transpose, getElem?_map, getElem?_eq_getElem hs]
  simp only [Option.map_some, Option.getD_some]
  rw [Square.bitAt_of_lt _ hi, Square.bitAt_of_lt _ hj, Square.bit_transpose _ hi hj]

theorem checkLength_self (n : Nat) : checkLength n n = .ok () := by
  simp [checkLength]

/-- Adding matrices of one size adds their bits. -/
theorem xor_eq (h : m.squares.length = o.squares.length) :
    ∃ sum, m.xor o = .ok sum ∧ sum.squares.length = m.squares.length ∧
      ∀ s i j, i < 128 → sum.bitAt s i j = (m.bitAt s i j ^^ o.bitAt s i j) := by
  refine ⟨⟨zipWith Square.xor m.squares o.squares⟩, ?_, by simp [h], ?_⟩
  · rw [xor, h, checkLength_self]
    rfl
  · intro s i j hi
    rw [bitAt, bitAt, bitAt, getElem?_zipWith]
    by_cases hs : s < m.squares.length
    · rw [getElem?_eq_getElem hs, getElem?_eq_getElem (h ▸ hs)]
      simp [Square.bitAt, Square.xor, hi]
    · rw [getElem?_eq_none (Nat.le_of_not_lt hs), getElem?_eq_none (by omega)]
      simp [Square.bitAt, Square.zero, hi]

/-- Adding choice bits adds the same bits to all rows of a square. -/
theorem xorChoices_eq {choices : BitString} (h : m.height = choices.length) :
    ∃ sum, m.xorChoices choices = .ok sum ∧ sum.squares.length = m.squares.length ∧
      ∀ s i j, s < m.squares.length → i < 128 → j < 128 →
        sum.bitAt s i j = (m.bitAt s i j ^^ choices.bytes.bit (128 * s + j)) := by
  refine ⟨⟨zipWith Square.xorRow m.squares
    (BitString.blocks m.squares.length choices.bytes)⟩, ?_, by simp, ?_⟩
  · rw [xorChoices, h, checkLength_self]
    rfl
  · intro s i j hs hi hj
    rw [bitAt, bitAt, getElem?_zipWith, getElem?_eq_getElem hs,
      ← BitString.bit_blocks m.squares.length choices.bytes hs hj,
      getElem?_eq_getElem (by simpa using hs)]
    simp [Square.bitAt, Square.xorRow, hi]

/-- Adding another matrix to the selected columns. -/
theorem addWhere_eq (choice : Block) (h : m.squares.length = o.squares.length) :
    ∃ sum, m.addWhere choice o = .ok sum ∧ sum.squares.length = m.squares.length ∧
      ∀ s i j, i < 128 →
        sum.bitAt s i j = (m.bitAt s i j ^^ (choice.bit i && o.bitAt s i j)) := by
  refine ⟨⟨zipWith (fun s o => s.addWhere choice o) m.squares o.squares⟩, ?_, by simp [h], ?_⟩
  · rw [addWhere, h, checkLength_self]
    rfl
  · intro s i j hi
    rw [bitAt, bitAt, bitAt, getElem?_zipWith]
    by_cases hs : s < m.squares.length
    · rw [getElem?_eq_getElem hs, getElem?_eq_getElem (h ▸ hs)]
      simp [Square.bitAt, Square.addWhere, hi]
    · rw [getElem?_eq_none (Nat.le_of_not_lt hs), getElem?_eq_none (by omega)]
      simp [Square.bitAt, Square.zero, hi]

/-- The matrix whose columns come from streams. -/
def ofStreams (n : Nat) (streams : List Keystream) : BitMatrix :=
  ⟨(range n).map (squareOf ((columns n streams).1.map toArray).toArray)⟩

/-- Expanding streams gives the matrix of their next blocks. -/
theorem expand_eq (h : streams.length = 128) :
    m.expand streams = .ok (ofStreams m.squares.length streams,
      streams.map fun s => (s.blocks m.squares.length).2) := by
  have hrest : (columns m.squares.length streams).2
      = streams.map fun s => (s.blocks m.squares.length).2 := by
    simp only [columns, unzip_eq_map, map_map]
    rfl
  rw [expand, h, checkLength_self, ofStreams, ← hrest]
  rfl

@[simp]
theorem length_ofStreams (n : Nat) (streams : List Keystream) :
    (ofStreams n streams).squares.length = n := by
  simp [ofStreams]

@[simp]
theorem height_ofStreams (n : Nat) (streams : List Keystream) :
    (ofStreams n streams).height = n * 128 := by
  rw [height, length_ofStreams]

/-- Column `i` of the matrix is stream `i`. -/
theorem bitAt_ofStreams (hs : s < n) (hi : i < 128) {stream : Keystream}
    (hstream : streams[i]? = some stream) (j : Nat) :
    (ofStreams n streams).bitAt s i j = (((stream.blocks n).1[s]?).getD .zero).bit j := by
  rw [bitAt, ofStreams, getElem?_map, getElem?_range hs]
  simp [squareOf, Square.bitAt, hi, columns, hstream, unzip_eq_map]

/-- The columns that `delta` selects come from the second streams, all others from the
first. -/
theorem bitAt_ofStreams_chosen {zeros ones chosen : List Keystream} (hzeros : zeros.length = 128)
    (hones : ones.length = 128)
    (hchosen : ∀ i < 128, chosen[i]? = if delta.bit i then ones[i]? else zeros[i]?) (hs : s < n)
    (hi : i < 128) (j : Nat) :
    (ofStreams n chosen).bitAt s i j
      = if delta.bit i then (ofStreams n ones).bitAt s i j else (ofStreams n zeros).bitAt s i j := by
  have hone : ones[i]? = some ones[i] := getElem?_eq_getElem (by omega)
  have hzero : zeros[i]? = some zeros[i] := getElem?_eq_getElem (by omega)
  have hpick := hchosen i hi
  cases hbit : delta.bit i with
  | false =>
    rw [hbit, if_neg (by decide), hzero] at hpick
    rw [bitAt_ofStreams hs hi hpick, if_neg (by decide), bitAt_ofStreams hs hi hzero]
  | true =>
    rw [hbit, if_pos rfl, hone] at hpick
    rw [bitAt_ofStreams hs hi hpick, if_pos rfl, bitAt_ofStreams hs hi hone]

/-- **Rows after the correction.**  With the correction `u` for the choice bits, and an
error on its way, row `l` of the sender is row `l` of the receiver, plus `delta` if choice
bit `l` is set, plus what `delta` selects of row `l` of the error. -/
theorem row_correlated {zeros ones chosen error u sent mixed : BitMatrix} {choices : Bytes}
    (hzeros : zeros.squares.length = n) (herror : error.squares.length = n)
    (hmixed : mixed.squares.length = n)
    (hchosen : ∀ s i j, s < n → i < 128 →
      chosen.bitAt s i j = if delta.bit i then ones.bitAt s i j else zeros.bitAt s i j)
    (hu : ∀ s i j, s < n → i < 128 → j < 128 → u.bitAt s i j
      = ((ones.bitAt s i j ^^ zeros.bitAt s i j) ^^ choices.bit (128 * s + j)))
    (hsent : ∀ s i j, i < 128 → sent.bitAt s i j = (u.bitAt s i j ^^ error.bitAt s i j))
    (happlied : ∀ s i j, i < 128 →
      mixed.bitAt s i j = (chosen.bitAt s i j ^^ (delta.bit i && sent.bitAt s i j)))
    {l : Nat} (hl : l < n * 128) :
    mixed.transpose.rowAt l = zeros.transpose.rowAt l ^^^ delta.scale (choices.bit l)
      ^^^ (delta &&& error.transpose.rowAt l) := by
  obtain ⟨s, i, hi, rfl⟩ : ∃ s i, i < 128 ∧ l = 128 * s + i :=
    ⟨l / 128, l % 128, Nat.mod_lt _ (by omega), (Nat.div_add_mod _ _).symm⟩
  have hs : s < n := by omega
  apply rowAt_eq hi
  intro j hj
  rw [bitAt_transpose _ (hmixed ▸ hs) hi hj, happlied s j i hj, hchosen s j i hs hj,
    hsent s j i hj, hu s j i hs hj hi]
  simp only [Block.bit_xor, Block.bit_scale, Block.bit_and, bit_rowAt _ _ hi]
  rw [bitAt_transpose _ (hzeros ▸ hs) hi hj, bitAt_transpose _ (herror ▸ hs) hi hj]
  cases delta.bit j <;> cases ones.bitAt s j i <;> cases zeros.bitAt s j i <;>
    cases choices.bit (128 * s + i) <;> cases error.bitAt s j i <;> rfl

end Beaver.BitMatrix
