import Mathlib
import Beaver.Proofs.Loops
import Beaver.Proofs.PackedBits
import Beaver.Proofs.SquareTranspose
import Beaver.Proofs.Transpose.Fills
import Beaver.Proofs.WireRoundTrip

/-!
# Transposing by columns of bytes

Sixteen bytes, one of each of 16 rows, hold eight columns.  Their top bits are a piece of the
last of these columns; shifting moves the next column to the top, and the bits that leak into
a neighbouring byte do not get there in eight steps (`exists_putColumns`).  All these pieces
together fill the output as far as the input reaches (`exists_byColumns`), so the output is the
transposed matrix; transposing it once more gives the input back, and on the bytes of a square
it is the transposition in registers (`byColumns_transposes`).
-/

namespace Beaver.Transpose

open List

theorem length_topBits (v : Block) : (topBits v).length = 2 := by
  rw [topBits, BitString.length_pack, length_map, length_range]
  rfl

theorem bit_topBits (v : Block) {t : Nat} (ht : t < 16) :
    Bytes.bit (topBits v) t = v.bit (8 * t + 7) := by
  rw [topBits, BitString.bit_pack, getElem?_map, getElem?_range ht]
  rfl

/-- Every bit but the first of a half comes from the place below. -/
theorem bit_shiftBytes (v : Block) {i : Nat} (hi : i < 128) (hfirst : i % 64 ≠ 0) :
    (shiftBytes v).bit i = v.bit (i - 1) := by
  have hword : ∀ (x : UInt64) {m : Nat}, m < 64 → m ≠ 0 →
      (x <<< 1).toNat.testBit m = x.toNat.testBit (m - 1) := by
    intro x m hm hne
    have hone : (1 : UInt64).toNat % 64 = 1 := rfl
    have hle : 1 ≤ m := by omega
    rw [UInt64.toNat_shiftLeft, hone, Nat.testBit_mod_two_pow, Nat.testBit_shiftLeft]
    simp [hm, hle]
  rcases Block.half_cases hi with hlow | ⟨m, hm, rfl⟩
  · rw [Block.bit_of_lt _ hlow, Block.bit_of_lt _ (by omega)]
    exact hword v.lo hlow (by omega)
  · have hprev : 64 + m - 1 = 64 + (m - 1) := by omega
    rw [Block.bit_add _ hm, hprev, Block.bit_add _ (by omega)]
    exact hword v.hi hm (by omega)

section Columns

variable {input : Array UInt8} {stripes width r c : Nat}

/-- The bytes of 16 rows in one column of bytes. -/
theorem exists_column (hsize : input.size = 16 * stripes * width) (hr : r < stripes)
    (hc : c < width) :
    ∃ v, column? input (8 * width) (16 * r) (8 * c) = some v ∧
      ∀ a < 16, ∀ m < 8, v.bit (8 * a + m) = bitAt input width (16 * r + a) (8 * c + m) := by
  have hplace : ∀ a, (16 * r + a) * (8 * width) / 8 + 8 * c / 8 = (16 * r + a) * width + c := by
    intro a
    rw [Nat.mul_left_comm, Nat.mul_div_cancel_left _ (by omega),
      Nat.mul_div_cancel_left _ (by omega)]
  have hbytes : ∀ a ∈ range 16, input[(16 * r + a) * (8 * width) / 8 + 8 * c / 8]?
      = some ((input[(16 * r + a) * width + c]?).getD 0) := by
    intro a ha
    have hrow : 16 * r + a < 16 * stripes := by
      have hlt := mem_range.mp ha
      omega
    have hin : (16 * r + a) * width + c < input.size := by
      have hle := place_le hrow hc
      omega
    rw [hplace, Array.getElem?_eq_getElem hin]
    rfl
  refine ⟨.ofBytes ((range 16).map fun a => (input[(16 * r + a) * width + c]?).getD 0), ?_, ?_⟩
  · rw [column?, mapM_eq_some hbytes]
    rfl
  · intro a ha m hm
    have hdiv : (8 * a + m) / 8 = a := by omega
    have hmod : (8 * a + m) % 8 = m := by omega
    have hcdiv : (8 * c + m) / 8 = c := by omega
    have hcmod : (8 * c + m) % 8 = m := by omega
    rw [Block.bit_ofBytes _ (by omega), Bytes.bit, hdiv, hmod, getElem?_map,
      getElem?_range ha, bitAt, hcdiv, hcmod]
    simp only [Option.map_some]
    cases input[(16 * r + a) * width + c]? with
    | none => simp
    | some x => rfl

/-- **Eight columns in eight steps.**  With `n` columns left, column `m` of them stands `8 - n`
places above its own; the last one stands at the top of the bytes. -/
theorem exists_putColumns (hr : r < stripes) (hc : c < width) {n : Nat} (hn : n ≤ 8) {v : Block}
    (hv : ∀ a < 16, ∀ m < n,
      v.bit (8 * a + (8 - n) + m) = bitAt input width (16 * r + a) (8 * c + m))
    (out : Array UInt8) (hout : 16 * stripes * width ≤ out.size) :
    ∃ filled, putColumns (16 * stripes) (16 * r) (8 * c) n v out = some filled ∧
      Fills (Transposed input width (2 * stripes)) (fun i => ∃ m < n,
        i / (2 * stripes) = 8 * c + m ∧ 2 * r ≤ i % (2 * stripes) ∧
          i % (2 * stripes) < 2 * r + 2) out filled := by
  induction n generalizing v out with
  | zero => exact ⟨out, rfl, (Fills.nothing out).congr (by simp)⟩
  | succ n ih =>
    have hstart : (8 * c + n) * (16 * stripes) / 8 + 16 * r / 8
        = (8 * c + n) * (2 * stripes) + 2 * r := by
      have hrow : (8 * c + n) * (16 * stripes) = 8 * ((8 * c + n) * (2 * stripes)) := by ring
      rw [hrow, Nat.mul_div_cancel_left _ (by omega)]
      omega
    have hroom : (8 * c + n) * (2 * stripes) + 2 * r + 2 ≤ out.size := by
      have hcol : 8 * c + n < 8 * width := by omega
      have hfit : 2 * r + 2 ≤ 2 * stripes := by omega
      have hle := place_le hcol hfit
      have hall : 8 * width * (2 * stripes) = 16 * stripes * width := by ring
      omega
    have htop : ∀ t < 8 * (topBits v).length,
        Bytes.bit (topBits v) t = bitAt input width (8 * (2 * r) + t) (8 * c + n) := by
      intro t ht
      rw [length_topBits] at ht
      have hbit := hv t ht n (Nat.lt_succ_self n)
      have hplace : 8 * t + (8 - (n + 1)) + n = 8 * t + 7 := by omega
      have hrow : 8 * (2 * r) + t = 16 * r + t := by omega
      rw [hplace] at hbit
      rw [bit_topBits v ht, hrow, hbit]
    obtain ⟨middle, hmiddle, hpiece⟩ := exists_piece hstart
      (by rw [length_topBits]; omega) (by rw [length_topBits, hstart]; exact hroom) htop
    rw [length_topBits] at hpiece
    have hshifted : ∀ a < 16, ∀ m < n, (shiftBytes v).bit (8 * a + (8 - n) + m)
        = bitAt input width (16 * r + a) (8 * c + m) := by
      intro a ha m hm
      have hplace : 8 * a + (8 - n) + m - 1 = 8 * a + (8 - (n + 1)) + m := by omega
      rw [bit_shiftBytes v (by omega) (by omega), hplace, hv a ha m (by omega)]
    obtain ⟨filled, hfilled, hrest⟩ :=
      ih (by omega) hshifted middle (by rw [hpiece.size]; exact hout)
    refine ⟨filled, ?_, (hpiece.andThen hrest).congr fun i => ?_⟩
    · rw [putColumns, hmiddle]
      exact hfilled
    · constructor
      · rintro (h | ⟨m, hm, h⟩)
        · exact ⟨n, Nat.lt_succ_self n, h⟩
        · exact ⟨m, by omega, h⟩
      · rintro ⟨m, hm, h⟩
        rcases Nat.lt_succ_iff_lt_or_eq.mp hm with hlt | rfl
        · exact .inr ⟨m, hlt, h⟩
        · exact .inl h

/-- **All columns fill the output as far as the input reaches.** -/
theorem exists_byColumns (hstripes : 0 < stripes) (hwidth : 2 ≤ width)
    (hsize : input.size = 16 * stripes * width) {out : Array UInt8}
    (hout : input.size ≤ out.size) :
    ∃ filled, byColumns? input out (16 * stripes) = some filled ∧
      Fills (Transposed input width (2 * stripes)) (· < input.size) out filled := by
  have hcols : input.size * 8 / (16 * stripes) = 8 * width := columns_eq (by omega) hsize
  have hrows : 16 * stripes / 16 = stripes := by omega
  have hbytes : 8 * width / 8 = width := by omega
  have hmod : input.size % (16 * stripes) = 0 := by rw [hsize, Nat.mul_mod_right]
  have hpos : 0 < 2 * stripes := by omega
  have hstripe : ∀ r ∈ range stripes, ∀ o : Array UInt8, o.size = out.size →
      ∃ filled, (range width).foldlM (fun out c => do
        let v ← column? input (8 * width) (16 * r) (8 * c)
        putColumns (16 * stripes) (16 * r) (8 * c) 8 v out) o = some filled ∧
        Fills (Transposed input width (2 * stripes)) (fun i => ∃ c ∈ range width, ∃ m < 8,
          i / (2 * stripes) = 8 * c + m ∧ 2 * r ≤ i % (2 * stripes) ∧
            i % (2 * stripes) < 2 * r + 2) o filled := by
    intro r hr o ho
    apply Fills.exists_loop (n := out.size) _ ho
    intro c hc o ho
    have hr := mem_range.mp hr
    have hc := mem_range.mp hc
    obtain ⟨v, hv, hbits⟩ := exists_column hsize hr hc
    obtain ⟨filled, hfilled, hfills⟩ :=
      exists_putColumns hr hc (Nat.le_refl 8) (by simpa using hbits) o (by omega)
    refine ⟨filled, ?_, hfills⟩
    rw [hv]
    exact hfilled
  obtain ⟨filled, hfilled, hfills⟩ := Fills.exists_loop hstripe rfl
  refine ⟨filled, ?_, hfills.congr fun i => ?_⟩
  · unfold byColumns?
    simp only [hcols, hrows, hbytes]
    rw [if_pos (by omega)]
    exact hfilled
  · -- byte `i` belongs to column `i / (2 * stripes)`
    have hall : input.size = 8 * width * (2 * stripes) := by rw [hsize]; ring
    have hmodlt := Nat.mod_lt i hpos
    rw [hall, ← Nat.div_lt_iff_lt_mul hpos]
    constructor
    · rintro ⟨r, -, c, hc, m, hm, hcol, -⟩
      have hc := mem_range.mp hc
      omega
    · intro h
      refine ⟨i % (2 * stripes) / 2, mem_range.mpr (by omega), i / (2 * stripes) / 8,
        mem_range.mpr (by omega), i / (2 * stripes) % 8, by omega, by omega, by omega, by omega⟩

end Columns

/-- The transposed matrix stands at the front of the output, and what was behind it is still
there. -/
structure IsTranspose (input out filled : Array UInt8) (rows cols : Nat) : Prop where
  size : filled.size = out.size
  bits : ∀ r < rows, ∀ c < cols, bitAt filled (rows / 8) c r = bitAt input (cols / 8) r c
  rest : ∀ i, input.size ≤ i → filled[i]? = out[i]?

section Shapes

variable {input out filled : Array UInt8} {stripes width : Nat}

theorem isTranspose_of_fills (hsize : input.size = 16 * stripes * width)
    (h : Fills (Transposed input width (2 * stripes)) (· < input.size) out filled) :
    IsTranspose input out filled (16 * stripes) (8 * width) where
  size := h.size
  bits r hr c hc := by
    have hheight : 16 * stripes / 8 = 2 * stripes := by omega
    have hwidth : 8 * width / 8 = width := by omega
    rw [hheight, hwidth]
    exact h.bitAt_eq (by rw [hsize]; ring) (by omega) hc
  rest i hi := h.outside i (by omega)

/-- **Twice transposed is the input.**  The columns of the input are the rows of the output, so
there has to be a multiple of 16 of them. -/
theorem exists_returned (hstripes : 0 < stripes) (hwidth : 0 < width)
    (hsize : input.size = 16 * stripes * (2 * width)) (hout : input.size ≤ out.size)
    (h : IsTranspose input out filled (16 * stripes) (16 * width)) {back : Array UInt8}
    (hback : input.size ≤ back.size) :
    ∃ returned, byColumns? (filled.extract 0 input.size) back (16 * width) = some returned ∧
      returned.extract 0 input.size = input := by
  have hfront : (filled.extract 0 input.size).size = input.size := by
    rw [Array.size_extract, h.size]
    omega
  have hshape : (filled.extract 0 input.size).size = 16 * width * (2 * stripes) := by
    rw [hfront, hsize]
    ring
  have hroom : (filled.extract 0 input.size).size ≤ back.size := by rw [hfront]; exact hback
  obtain ⟨returned, hreturned, hfills⟩ := exists_byColumns hwidth (by omega) hshape hroom
  refine ⟨returned, hreturned, ?_⟩
  have hagain := isTranspose_of_fills hshape hfills
  apply @ext_bitAt _ _ (16 * stripes) (2 * width)
  · rw [Array.size_extract, hagain.size]
    omega
  · exact hsize
  · intro r hr c hc
    have hheight : 16 * stripes / 8 = 2 * stripes := by omega
    have hwidth' : 16 * width / 8 = 2 * width := by omega
    have hrow : r / 8 < 2 * stripes := by omega
    have hcol : c / 8 < 2 * width := by omega
    have hplace : r * (2 * width) + c / 8 < input.size := by
      have hle := place_le hr hcol
      omega
    have hplace' : c * (2 * stripes) + r / 8 < input.size := by
      have hlt : c < 16 * width := by omega
      have hle := place_le hlt hrow
      omega
    have hfirst := h.bits r hr c (by omega)
    have hsecond := hagain.bits c (by omega) r (by omega)
    rw [hheight, hwidth'] at hfirst
    rw [Nat.mul_div_cancel_left _ (by omega), hwidth'] at hsecond
    rw [bitAt_extract hplace, hsecond, bitAt_extract hplace', hfirst]

end Shapes

end Beaver.Transpose

namespace Beaver.Square

theorem getElem?_flatMap_toBytes (rows : List Block) (i : Nat) {k : Nat} (hk : k < 16) :
    (rows.flatMap Block.toBytes)[16 * i + k]? = (rows[i]?).bind (·.toBytes[k]?) := by
  induction rows generalizing i with
  | nil => rfl
  | cons row rows ih =>
    rw [List.flatMap_cons]
    cases i with
    | zero =>
      rw [List.getElem?_append_left (by rw [Block.length_toBytes]; omega), Nat.mul_zero,
        Nat.zero_add]
      rfl
    | succ i =>
      have hback : 16 * (i + 1) + k - 16 = 16 * i + k := by omega
      rw [List.getElem?_append_right (by rw [Block.length_toBytes]; omega),
        Block.length_toBytes, hback, ih, List.getElem?_cons_succ]

/-- The bytes of a square are a packed matrix with 16 bytes to a row. -/
theorem bitAt_toBytes (s : Square) {i j : Nat} (hi : i < 128) (hj : j < 128) :
    Transpose.bitAt s.toBytes.toArray 16 i j = s.rows[i].bit j := by
  have hrow : s.rows.toList[i]? = some s.rows[i] := by simp [hi]
  rw [Transpose.bitAt, List.getElem?_toArray, toBytes, Nat.mul_comm,
    getElem?_flatMap_toBytes _ _ (by omega), hrow, ← Block.bit_toBytes_self _ hj]
  rfl

theorem size_toBytes (s : Square) : s.toBytes.toArray.size = 128 * 16 := length_toBytes s

/-- Transposing the bytes of a square by columns is transposing it in registers. -/
theorem byColumns?_toBytes (s : Square) {out : Array UInt8} (hout : out.size = 2048) :
    Transpose.byColumns? s.toBytes.toArray out 128 = some s.transpose.toBytes.toArray := by
  have hsize : s.toBytes.toArray.size = 16 * 8 * 16 := size_toBytes s
  obtain ⟨filled, hfilled, hfills⟩ :
      ∃ filled, Transpose.byColumns? s.toBytes.toArray out (16 * 8) = some filled ∧
        Transpose.Fills (Transpose.Transposed s.toBytes.toArray 16 (2 * 8))
          (· < s.toBytes.toArray.size) out filled :=
    Transpose.exists_byColumns (by omega) (by omega) hsize (by omega)
  have hbytes : filled = s.transpose.toBytes.toArray := by
    apply Transpose.ext_bitAt (hfills.size.trans hout) (size_toBytes s.transpose)
    intro r hr c hc
    rw [hfills.bitAt_eq hsize hc hr, bitAt_toBytes s hc hr, bitAt_toBytes s.transpose hr hc,
      bit_transpose s hr hc]
  rw [← hbytes]
  exact hfilled

end Beaver.Square

namespace Beaver.Transpose

/-- **Transposing by columns is the transposition.**  With rows a positive multiple of 16,
columns a multiple of 8 that are at least 16, and an output that is long enough, nothing is
missing, rows and columns change places, and no byte past the matrix is touched; if the columns
are a multiple of 16 as well, transposing back gives the input.  On squares it is what the
transposed square says. -/
theorem byColumns_transposes :
    (∀ (input out : Array UInt8) (rows cols : Nat), 16 ≤ rows → 16 ∣ rows → 16 ≤ cols → 8 ∣ cols →
      input.size = rows * (cols / 8) → input.size ≤ out.size →
      ∃ filled, byColumns? input out rows = some filled ∧ IsTranspose input out filled rows cols ∧
        (16 ∣ cols → ∀ back : Array UInt8, input.size ≤ back.size →
          ∃ returned, byColumns? (filled.extract 0 input.size) back cols = some returned ∧
            returned.extract 0 input.size = input)) ∧
    (∀ s : Square, (∀ i j, s.transpose.get? i j = s.get? j i) ∧
      ∀ out : Array UInt8, out.size = 2048 →
        byColumns? s.toBytes.toArray out 128 = some s.transpose.toBytes.toArray) := by
  constructor
  · rintro input out rows cols hrows ⟨stripes, rfl⟩ hcols ⟨width, rfl⟩ hsize hout
    rw [Nat.mul_div_cancel_left _ (by omega)] at hsize
    obtain ⟨filled, hfilled, hfills⟩ := exists_byColumns (by omega) (by omega) hsize hout
    have htranspose := isTranspose_of_fills hsize hfills
    refine ⟨filled, hfilled, htranspose, ?_⟩
    rintro ⟨half, hhalf⟩ back hback
    obtain rfl : width = 2 * half := by omega
    rw [hhalf] at htranspose ⊢
    exact exists_returned (by omega) (by omega) hsize hout htranspose hback
  · intro s
    exact ⟨s.get?_transpose, fun out hout => s.byColumns?_toBytes hout⟩

/-- A matrix with 16 rows and 32 columns, in an output with room for two more bytes. -/
theorem byColumns_transposes_wide :
    ∃ filled, byColumns? (Array.ofFn fun i : Fin 64 => UInt8.ofNat (7 * i)) (.replicate 66 255) 16
        = some filled ∧
      filled[65]? = some 255 ∧
      ∃ returned, byColumns? (filled.extract 0 64) (.replicate 64 0) 32 = some returned ∧
        returned.extract 0 64 = Array.ofFn fun i : Fin 64 => UInt8.ofNat (7 * i) := by
  have hsize : (Array.ofFn fun i : Fin 64 => UInt8.ofNat (7 * i)).size = 64 := Array.size_ofFn
  obtain ⟨filled, hfilled, htranspose, hback⟩ := byColumns_transposes.1
    (Array.ofFn fun i : Fin 64 => UInt8.ofNat (7 * i)) (.replicate 66 255) 16 32 (by decide)
    (by decide) (by decide) (by decide) hsize (by rw [hsize]; decide)
  rw [hsize] at hback
  refine ⟨filled, hfilled, ?_, hback (by decide) (.replicate 64 0) (by decide)⟩
  rw [htranspose.rest 65 (by rw [hsize]; decide)]
  decide

end Beaver.Transpose
