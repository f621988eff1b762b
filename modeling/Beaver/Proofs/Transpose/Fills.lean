import Mathlib
import Beaver.BitMatrix.Transpose
import Beaver.Proofs.BlockBits

/-!
# Filling a transposed matrix piece by piece

Both ways to transpose a packed matrix write the output in pieces: some bytes of one output
row, which is a column of the input.  A piece that has the bits of this column fills its
places and leaves all others (`Fills`); so do the pieces of a loop, one after the other
(`Fills.exists_loop`).  The order of the pieces does not matter: what an output is in the end
depends only on the places that were filled (`Fills.unique`).
-/

namespace Beaver.Transpose

/-- The given places of an output have been filled with bytes that are right there; all other
places are as before. -/
structure Fills (right : Nat → UInt8 → Prop) (places : Nat → Prop) (out filled : Array UInt8) :
    Prop where
  size : filled.size = out.size
  inside : ∀ i, places i → ∃ x, filled[i]? = some x ∧ right i x
  outside : ∀ i, ¬ places i → filled[i]? = out[i]?

namespace Fills

variable {right : Nat → UInt8 → Prop} {P Q : Nat → Prop} {a b c : Array UInt8}

theorem nothing (a : Array UInt8) : Fills right (fun _ => False) a a where
  size := rfl
  inside _ h := h.elim
  outside _ _ := rfl

/-- Filling some places and then others; places that were filled before stay right. -/
theorem andThen (h : Fills right P a b) (h' : Fills right Q b c) :
    Fills right (fun i => P i ∨ Q i) a c where
  size := h'.size.trans h.size
  inside i hi := by
    by_cases hQ : Q i
    · exact h'.inside i hQ
    · obtain ⟨x, hx, hright⟩ := h.inside i (hi.resolve_right hQ)
      exact ⟨x, (h'.outside i hQ).trans hx, hright⟩
  outside i hi := by
    rw [not_or] at hi
    exact (h'.outside i hi.2).trans (h.outside i hi.1)

theorem congr (h : Fills right P a b) (hPQ : ∀ i, P i ↔ Q i) : Fills right Q a b where
  size := h.size
  inside i hi := h.inside i ((hPQ i).mpr hi)
  outside i hi := h.outside i (mt (hPQ i).mp hi)

/-- If only one byte is right in each place, the places decide the output. -/
theorem unique (hright : ∀ i x y, right i x → right i y → x = y) (h : Fills right P a b)
    (h' : Fills right P a c) : b = c := by
  apply Array.ext_getElem?
  intro i
  by_cases hi : P i
  · obtain ⟨x, hx, hxr⟩ := h.inside i hi
    obtain ⟨y, hy, hyr⟩ := h'.inside i hi
    rw [hx, hy, hright i x y hxr hyr]
  · rw [h.outside i hi, h'.outside i hi]

/-- **A loop fills what its steps fill.** -/
theorem exists_loop {α : Type} {f : Array UInt8 → α → Option (Array UInt8)}
    {places : α → Nat → Prop} {xs : List α} {n : Nat} (hstep : ∀ x ∈ xs, ∀ out : Array UInt8, out.size = n →
      ∃ filled, f out x = some filled ∧ Fills right (places x) out filled)
    {out : Array UInt8} (hout : out.size = n) :
    ∃ filled, xs.foldlM f out = some filled ∧
      Fills right (fun i => ∃ x ∈ xs, places x i) out filled := by
  induction xs generalizing out with
  | nil => exact ⟨out, rfl, (nothing out).congr (by simp)⟩
  | cons x xs ih =>
    obtain ⟨middle, hmiddle, hfirst⟩ := hstep x List.mem_cons_self out hout
    obtain ⟨filled, hfilled, hrest⟩ :=
      ih (fun y hy => hstep y (List.mem_cons_of_mem x hy)) (hfirst.size.trans hout)
    refine ⟨filled, ?_, (hfirst.andThen hrest).congr (by simp)⟩
    rw [List.foldlM_cons, hmiddle]
    exact hfilled

end Fills

section Writes

theorem size_write (out : Array UInt8) (start : Nat) (bs : Bytes) :
    (write out start bs).size = out.size := by
  induction bs generalizing out start with
  | nil => rfl
  | cons b bs ih => rw [write, ih, Array.size_setIfInBounds]

theorem getElem?_write {out : Array UInt8} {start : Nat} {bs : Bytes}
    (hroom : start + bs.length ≤ out.size) (i : Nat) :
    (write out start bs)[i]?
      = if start ≤ i ∧ i < start + bs.length then bs[i - start]? else out[i]? := by
  induction bs generalizing out start with
  | nil => rw [write, if_neg (by simp)]
  | cons b bs ih =>
    rw [List.length_cons] at hroom
    rw [write, ih (by rw [Array.size_setIfInBounds]; omega), List.length_cons]
    by_cases hfirst : i = start
    · subst hfirst
      rw [if_neg (by omega), if_pos (by omega), Nat.sub_self, List.getElem?_cons_zero]
      exact Array.getElem?_setIfInBounds_self_of_lt (by omega)
    · by_cases hin : start + 1 ≤ i ∧ i < start + 1 + bs.length
      · have hnext : i - start = i - (start + 1) + 1 := by omega
        rw [if_pos hin, if_pos (by omega), hnext, List.getElem?_cons_succ]
      · rw [if_neg hin, if_neg (by omega)]
        exact Array.getElem?_setIfInBounds_ne (Ne.symm hfirst)

end Writes

section Pieces

/-- Bit `c` of row `r` of a packed matrix with `stride` bytes to a row. -/
def bitAt (data : Array UInt8) (stride r c : Nat) : Bool :=
  ((data[r * stride + c / 8]?).map fun b => b.toNat.testBit (c % 8)).getD false

/-- What byte `i` of a transposed matrix has to be.  The input has `width` bytes to a row, the
output `height`. -/
def Transposed (input : Array UInt8) (width height i : Nat) (x : UInt8) : Prop :=
  ∀ b < 8, x.toNat.testBit b = bitAt input width (8 * (i % height) + b) (i / height)

variable {input : Array UInt8} {width height : Nat}

/-- Eight bits decide a byte. -/
theorem byte_ext {x y : UInt8} (h : ∀ b < 8, x.toNat.testBit b = y.toNat.testBit b) : x = y := by
  apply UInt8.toNat_inj.mp
  apply Nat.eq_of_testBit_eq
  intro b
  by_cases hb : b < 8
  · exact h b hb
  · have hle : 8 ≤ b := by omega
    rw [testBit_of_lt_of_le x.toNat_lt hle, testBit_of_lt_of_le y.toNat_lt hle]

/-- Only one byte is right in each place. -/
theorem Transposed.unique (i : Nat) (x y : UInt8) (hx : Transposed input width height i x)
    (hy : Transposed input width height i y) : x = y := by
  apply byte_ext
  intro b hb
  rw [hx b hb, hy b hb]

/-- All bits decide a matrix. -/
theorem ext_bitAt {a b : Array UInt8} {n stride : Nat} (ha : a.size = n * stride)
    (hb : b.size = n * stride)
    (h : ∀ r < n, ∀ c < 8 * stride, bitAt a stride r c = bitAt b stride r c) : a = b := by
  apply Array.ext (ha.trans hb.symm)
  intro i hia hib
  have hpos : 0 < stride := by
    apply Nat.pos_of_ne_zero
    rintro rfl
    omega
  have hrow : i / stride < n := (Nat.div_lt_iff_lt_mul hpos).mpr (by omega)
  have hcol := Nat.mod_lt i hpos
  apply byte_ext
  intro k hk
  have hdiv : (8 * (i % stride) + k) / 8 = i % stride := by omega
  have hmod : (8 * (i % stride) + k) % 8 = k := by omega
  have hbit := h _ hrow (8 * (i % stride) + k) (by omega)
  rw [bitAt, bitAt, hdiv, hmod, Nat.div_add_mod', Array.getElem?_eq_getElem hia,
    Array.getElem?_eq_getElem hib] at hbit
  exact hbit

/-- Bits that are in the front part. -/
theorem bitAt_extract {data : Array UInt8} {n stride r c : Nat} (h : r * stride + c / 8 < n) :
    bitAt (data.extract 0 n) stride r c = bitAt data stride r c := by
  have hbyte : (data.extract 0 n)[r * stride + c / 8]? = data[r * stride + c / 8]? := by
    rw [Array.getElem?_extract]
    split
    · rw [Nat.zero_add]
    · rw [Array.getElem?_eq_none (by omega)]
  rw [bitAt, hbyte, bitAt]

/-- Places in a matrix with `height` bytes to a row. -/
theorem place_div_mod {c d : Nat} (hd : d < height) :
    (c * height + d) / height = c ∧ (c * height + d) % height = d := by
  have hpos : 0 < height := by omega
  rw [Nat.mul_comm c height, Nat.mul_add_div hpos, Nat.div_eq_of_lt hd, Nat.mul_add_mod,
    Nat.mod_eq_of_lt hd]
  exact ⟨rfl, rfl⟩

/-- What stands in a row ends before the next one starts. -/
theorem place_le {n c k : Nat} (hc : c < n) (hk : k ≤ height) : c * height + k ≤ n * height := by
  have hle : (c + 1) * height ≤ n * height := Nat.mul_le_mul_right _ hc
  rw [Nat.succ_mul] at hle
  omega

/-- The number of columns that is computed from the number of rows. -/
theorem columns_eq {rows : Nat} (hrows : 0 < rows) (hsize : input.size = rows * width) :
    input.size * 8 / rows = 8 * width := by
  rw [hsize, Nat.mul_assoc, Nat.mul_div_cancel_left _ hrows, Nat.mul_comm]

/-- The places of a piece of row `c`, which are the bytes of this row from `d` on. -/
theorem piece_iff {c d n i : Nat} (hfit : d + n ≤ height) :
    (c * height + d ≤ i ∧ i < c * height + d + n) ↔
      i / height = c ∧ d ≤ i % height ∧ i % height < d + n := by
  have hsplit := Nat.div_add_mod i height
  rw [Nat.mul_comm] at hsplit
  constructor
  · intro h
    have hdiv : i / height = c :=
      Nat.div_eq_of_lt_le (by omega) (by rw [Nat.succ_mul]; omega)
    rw [hdiv] at hsplit
    omega
  · rintro ⟨rfl, h⟩
    omega

/-- **A piece of a column** fills its places in the output. -/
theorem exists_piece {c d start : Nat} {bs : Bytes} {out : Array UInt8}
    (hstart : start = c * height + d) (hfit : d + bs.length ≤ height)
    (hroom : start + bs.length ≤ out.size)
    (hbits : ∀ t < 8 * bs.length, bs.bit t = bitAt input width (8 * d + t) c) :
    ∃ filled, write? out start bs = some filled ∧ Fills (Transposed input width height)
      (fun i => i / height = c ∧ d ≤ i % height ∧ i % height < d + bs.length) out filled := by
  subst hstart
  have hplaces := fun i => piece_iff (c := c) (i := i) hfit
  refine ⟨_, if_pos hroom, ⟨size_write _ _ _, ?_, ?_⟩⟩
  · intro i hi
    have hin := (hplaces i).mpr hi
    have hindex : i - (c * height + d) < bs.length := by omega
    refine ⟨bs[i - (c * height + d)], ?_, ?_⟩
    · rw [getElem?_write hroom, if_pos hin, List.getElem?_eq_getElem hindex]
    · intro b hb
      have hbit := hbits (8 * (i - (c * height + d)) + b) (by omega)
      have hdiv : (8 * (i - (c * height + d)) + b) / 8 = i - (c * height + d) := by omega
      have hmod : (8 * (i - (c * height + d)) + b) % 8 = b := by omega
      rw [Bytes.bit, hdiv, hmod, List.getElem?_eq_getElem hindex] at hbit
      have hoffset : i % height = d + (i - (c * height + d)) := by
        have hsplit := Nat.div_add_mod i height
        rw [hi.1, Nat.mul_comm] at hsplit
        omega
      rw [hi.1, hoffset, Nat.mul_add, Nat.add_assoc]
      exact hbit
  · intro i hi
    rw [getElem?_write hroom, if_neg (mt (hplaces i).mp hi)]

/-- An output that is filled as far as the input reaches has rows for columns. -/
theorem Fills.bitAt_eq {out filled : Array UInt8} (hsize : input.size = 8 * height * width)
    (h : Fills (Transposed input width height) (· < input.size) out filled) {r c : Nat}
    (hr : r < 8 * height) (hc : c < 8 * width) :
    bitAt filled height c r = bitAt input width r c := by
  have hplace : r / 8 < height := by omega
  obtain ⟨hdiv, hmod⟩ := place_div_mod (c := c) hplace
  have hin : c * height + r / 8 < input.size := by
    have hle := place_le hc hplace
    rw [hsize, Nat.mul_right_comm]
    omega
  obtain ⟨x, hx, hright⟩ := h.inside _ hin
  have hbit := hright (r % 8) (by omega)
  rw [hdiv, hmod, Nat.div_add_mod] at hbit
  rw [bitAt, hx]
  exact hbit

end Pieces

end Beaver.Transpose
