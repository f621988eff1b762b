import Mathlib
import Beaver.Proofs.Faults.Arithmetic
import Beaver.Proofs.Packing

/-!
# Unpacking with guards

A machine cuts bytes at places that have to be there, adds up sizes in words and copies only
between parts of one length.  The guarded ways of unpacking look at all of this and end in a
fault where something does not fit.  None ever does: the number of bytes is compared before
anything is cut, and what a length asks for is looked up before it is used, even if it is the
largest word.  So the guarded ways come to what the plain ones come to
(`PackedKind.guarded_eq`, `CountedKind.guarded_eq`), and these accept just what is packed
(`unpack_exact`).
-/

namespace Beaver

open List
open ShareRing

variable {α β : Type}

namespace Bytes

/-- The bytes from one place up to another, both of which have to be there. -/
def slice? (bs : Bytes) (lo hi : Nat) : Option Bytes :=
  if lo ≤ hi ∧ hi ≤ bs.length then some ((bs.drop lo).take (hi - lo)) else none

/-- The bytes before a place, which has to be there, and those after it. -/
def splitAt? (bs : Bytes) (n : Nat) : Option (Bytes × Bytes) :=
  if n ≤ bs.length then some (bs.take n, bs.drop n) else none

/-- As many pieces of the given size as there are whole ones; pieces are not empty. -/
def chunks? (size : Nat) (bs : Bytes) : Option (List Bytes) :=
  if size = 0 then none else some (bs.pieces size (bs.length / size))

variable {bs : Bytes} {n size : Nat}

theorem slice?_eq {lo hi : Nat} (h : lo ≤ hi ∧ hi ≤ bs.length) :
    bs.slice? lo hi = some ((bs.drop lo).take (hi - lo)) :=
  if_pos h

theorem splitAt?_eq (h : n ≤ bs.length) : bs.splitAt? n = some (bs.take n, bs.drop n) :=
  if_pos h

theorem chunks?_eq (hsize : 0 < size) (h : bs.length = n * size) :
    bs.chunks? size = some (bs.pieces size n) := by
  rw [chunks?, if_neg (by omega), h, Nat.mul_div_cancel _ hsize]

/-- Pieces are cut from the front. -/
theorem pieces_take {k : Nat} (h : n * size ≤ k) :
    pieces size n (bs.take k) = pieces size n bs := by
  induction n generalizing k bs with
  | zero => rfl
  | succ n ih =>
    rw [Nat.succ_mul] at h
    rw [pieces, pieces, take_take, Nat.min_eq_left (by omega), drop_take, ih (by omega)]

end Bytes

namespace Unpack

/-- A step that may fail with an error. -/
def check (x : Except Error α) : Except Failure α :=
  x.mapError .error

/-- A step that has no answer outside its domain. -/
def total (o : Option α) : Except Failure α :=
  o.elim (.error .fault) .ok

/-- A step that may find nothing, which is an error of the encoding. -/
def found (label : String) (o : Option α) : Except Failure α :=
  o.elim (.error (.error (.encoding label))) .ok

@[simp]
theorem total_some_bind (a : α) (f : α → Except Failure β) : (total (some a) >>= f) = f a := rfl

@[simp]
theorem found_some_bind (label : String) (a : α) (f : α → Except Failure β) :
    (found label (some a) >>= f) = f a := rfl

theorem check_ne_fault (x : Except Error α) : check x ≠ .error .fault := by
  cases x <;> simp [check, Except.mapError]

theorem check_bind (x : Except Error α) (f : α → Except Error β) :
    check (x >>= f) = check x >>= fun a => check (f a) := by
  cases x <;> rfl

theorem check_map (x : Except Error α) (f : α → β) : check (f <$> x) = f <$> check x := by
  cases x <;> rfl

theorem check_mapM (f : α → Except Error β) (xs : List α) :
    check (xs.mapM f) = xs.mapM fun x => check (f x) := by
  induction xs with
  | nil => rfl
  | cons x xs ih =>
    rw [mapM_cons, mapM_cons, check_bind, ← ih]
    refine congrArg _ (funext fun y => ?_)
    cases xs.mapM f <;> rfl

/-- Where the number of bytes is right, guards are looked at with it. -/
theorem check_length {n : Nat} {bs : Bytes} {g : Except Failure α} {p : Except Error α}
    (h : bs.length = n → g = check p) :
    (check (checkLength n bs.length) >>= fun _ => g)
      = check (checkLength n bs.length >>= fun _ => p) := by
  rw [check_bind]
  by_cases hn : n = bs.length
  · rw [h hn.symm]
  · rw [checkLength, if_neg hn]
    rfl

section Items

variable (τ μ : Type) [ShareRing τ] [ShareRing μ]

/-- Unpacks a share. -/
def share (bs : Bytes) : Except Failure (Share τ μ) := do
  check (checkLength (Stored.size (Share τ μ)) bs.length)
  let (value, tag) ← total (bs.splitAt? (bytes τ))
  let value ← check (unpackElement τ value)
  let tag ← check (unpackElement μ tag)
  .ok ⟨value, tag⟩

/-- Unpacks three parts of the given size, one after the other. -/
def three (size : Nat) (part : Bytes → Except Failure α) (bs : Bytes) :
    Except Failure (α × α × α) := do
  let a ← part (← total (bs.slice? 0 size))
  let double ← total (mulIn? 64 2 size)
  let b ← part (← total (bs.slice? size double))
  let c ← part (← total (bs.slice? double bs.length))
  .ok (a, b, c)

/-- Unpacks an item. -/
def item : (kind : ItemKind) → Bytes → Except Failure (ItemType.ItemOf τ μ kind)
  | .share, bs => share τ μ bs
  | .triple, bs => do
      check (checkLength (Stored.size (Triple τ μ)) bs.length)
      let (a, b, c) ← three (Stored.size (Share τ μ)) (share τ μ) bs
      .ok ⟨a, b, c⟩
  | .plainTriple, bs => do
      check (checkLength (Stored.size (PlainTriple τ)) bs.length)
      let (a, b, c) ← three (bytes τ) (fun bs => check (unpackElement τ bs)) bs
      .ok ⟨a, b, c⟩
  | .inputMask, bs => do
      check (checkLength (Stored.size (InputMask τ μ)) bs.length)
      let (share', clear) ← total (bs.splitAt? (Stored.size (Share τ μ)))
      let share' ← share τ μ share'
      let clear ← check (unpackElement τ clear)
      .ok ⟨share', clear⟩
  | .pair, bs => do
      check (checkLength (Stored.size (Share τ μ × Share τ μ)) bs.length)
      let (first, second) ← total (bs.splitAt? (Stored.size (Share τ μ × Share τ μ) / 2))
      let first ← share τ μ first
      let second ← share τ μ second
      .ok (first, second)

/-- Unpacks a rectangle. -/
def rectangle (bs : Bytes) : Except Failure (Rectangle τ μ) := do
  check (checkLength (Rectangle.packedLength τ μ) bs.length)
  let chunks ← total (bs.chunks? (bytes μ))
  let rows ← chunks.mapM fun c => check (unpackElement μ c)
  check (Rectangle.ofRows rows)

end Items

/-- Reads a count and as many items of the given size. -/
def counted (size : Nat) (label : String) (items : Nat → Bytes → Except Failure α) (bs : Bytes) :
    Except Failure (α × Nat) := do
  let header ← found label (bs.slice? 0 8)
  let n := Bytes.toNatLE header
  let stop ← found label ((mulIn? 64 n size).bind (addIn? 64 · 8))
  let data ← found label (bs.slice? 8 stop)
  let x ← items n data
  .ok (x, stop)

/-- Reads the elements of a row. -/
def row (τ : Type) [ShareRing τ] (data : Bytes) : Except Failure (Row τ) := do
  let chunks ← total (data.chunks? (bytes τ))
  Row.mk <$> chunks.mapM fun c => check (unpackElement τ c)

/-- Copies bytes into squares that memory has to have room for. -/
def matrix (n : Nat) (data : Bytes) : Except Failure BitMatrix := do
  let n ← total (room? n 2048)
  total (if data.length = n * 2048 then some ⟨BitMatrix.squaresOf n data⟩ else none)

/-- Reads a bit string. -/
def bits (bs : Bytes) : Except Failure (BitString × Nat) := do
  let header ← found "BitVector" (bs.slice? 0 8)
  let length := Bytes.toNatLE header
  let stop ← total (addIn? 64 8 (BitString.bytesFor length))
  let data ← found "BitVector" (bs.slice? 8 stop)
  let v ← check (BitString.ofBytes data length)
  if v.bytes ≠ data then .error (.error (.encoding "BitVector"))
  else .ok (v, stop)

section Equal

variable (r s : RingName)

theorem share_eq (bs : Bytes) : share r.Carrier s.Carrier bs = check (Stored.unpack bs) := by
  refine check_length fun hlength => ?_
  have hcut : bytes r.Carrier ≤ bs.length := hlength ▸ Nat.le_add_right ..
  rw [Bytes.splitAt?_eq hcut]
  simp only [Stored.unpackExact, check_bind]
  rfl

variable {r s} in
variable {size : Nat} {bs : Bytes}

/-- Three parts that fill the bytes are cut without a fault. -/
theorem three_eq {part : Bytes → Except Failure α} {plain : Bytes → Except Error α}
    (hpart : ∀ bs, part bs = check (plain bs)) (hlength : bs.length = 3 * size)
    (hsize : size < 2 ^ 63) :
    three size part bs = check (do
      let a ← plain (bs.take size)
      let b ← plain ((bs.drop size).take size)
      let c ← plain (bs.drop (2 * size))
      .ok (a, b, c)) := by
  have hfirst : bs.slice? 0 size = some (bs.take size) := Bytes.slice?_eq ⟨by omega, by omega⟩
  have hsecond : bs.slice? size (2 * size) = some ((bs.drop size).take size) := by
    rw [Bytes.slice?_eq ⟨by omega, by omega⟩, show 2 * size - size = size by omega]
  have hthird : bs.slice? (2 * size) bs.length = some (bs.drop (2 * size)) := by
    rw [Bytes.slice?_eq ⟨by omega, le_rfl⟩, take_of_length_le (by rw [length_drop])]
  have hdouble : mulIn? 64 2 size = some (2 * size) := mulIn?_eq (by omega)
  simp only [three, hfirst, hdouble, total_some_bind, hsecond, hthird, hpart, check_bind]
  rfl

theorem size_share_lt : Stored.size (Share r.Carrier s.Carrier) < 2 ^ 63 := by
  cases r <;> cases s <;> decide

theorem item_eq (kind : ItemKind) (bs : Bytes) :
    item r.Carrier s.Carrier kind bs = check (Stored.unpack bs) := by
  cases kind with
  | share => exact share_eq r s bs
  | triple =>
    refine check_length fun hlength => ?_
    rw [three_eq (share_eq r s) hlength (size_share_lt r s)]
    simp only [Stored.unpackExact, check_bind, bind_assoc]
    rfl
  | plainTriple =>
    refine check_length fun hlength => ?_
    have hsize : bytes r.Carrier < 2 ^ 63 := by cases r <;> decide
    rw [three_eq (fun _ => rfl) hlength hsize]
    simp only [Stored.unpackExact, check_bind, bind_assoc]
    rfl
  | inputMask =>
    refine check_length fun hlength => ?_
    have hcut : Stored.size (Share r.Carrier s.Carrier) ≤ bs.length := hlength ▸ Nat.le_add_right ..
    rw [Bytes.splitAt?_eq hcut]
    simp only [Stored.unpackExact, check_bind, share_eq]
    rfl
  | pair =>
    refine check_length fun hlength => ?_
    have hhalf : Stored.size (Share r.Carrier s.Carrier × Share r.Carrier s.Carrier) / 2
        = Stored.size (Share r.Carrier s.Carrier) := Nat.mul_div_cancel_left _ (by omega)
    have hcut : Stored.size (Share r.Carrier s.Carrier) ≤ bs.length := by
      rw [hlength]
      exact Nat.le_mul_of_pos_left _ (by omega)
    rw [hhalf, Bytes.splitAt?_eq hcut]
    simp only [Stored.unpackExact, check_bind, share_eq]
    rfl

theorem rectangle_eq (bs : Bytes) :
    rectangle r.Carrier s.Carrier bs = check (Rectangle.ofBytes bs) := by
  refine check_length fun hlength => ?_
  rw [Bytes.chunks?_eq s.bytes_pos hlength, total_some_bind, Rectangle.readRows_eq_readMany,
    Row.readMany_eq_mapM, check_bind, check_mapM]

/-- Where the items end, if that is a word. -/
theorem stop_eq (n size : Nat) : (mulIn? 64 n size).bind (addIn? 64 · 8)
    = if 8 + n * size < 2 ^ 64 then some (8 + n * size) else none := by
  rw [mulIn?, Nat.pow_eq]
  by_cases hmul : n * size < 2 ^ 64
  · rw [if_pos hmul, Option.bind_some, addIn?, Nat.pow_eq, Nat.add_comm]
  · rw [if_neg hmul, if_neg (by omega), Option.bind_none]

/-- A count is read without a fault if the items are, wherever they are all there. -/
theorem counted_eq {label : String} {items : Nat → Bytes → Except Failure α}
    {plain : Nat → Bytes → Except Error α}
    (hitems : ∀ n, 8 + n * size ≤ bs.length →
      items n ((bs.drop 8).take (n * size)) = check (plain n (bs.drop 8))) :
    counted size label items bs = check (Beaver.counted size label plain bs) := by
  rw [counted, Beaver.counted]
  by_cases h8 : 8 ≤ bs.length
  · have hlength : (bs.take 8).length = 8 := by rw [length_take, Nat.min_eq_left h8]
    have hheader : bs.slice? 0 8 = some (bs.take 8) := Bytes.slice?_eq ⟨by omega, h8⟩
    rw [hheader, found_some_bind]
    dsimp only
    rw [stop_eq]
    generalize Bytes.toNatLE (bs.take 8) = n
    by_cases hword : 8 + n * size < 2 ^ 64
    · rw [if_pos hword, found_some_bind]
      by_cases hthere : 8 + n * size ≤ bs.length
      · rw [Bytes.slice?_eq ⟨by omega, hthere⟩, found_some_bind, Nat.add_sub_cancel_left,
          hitems n hthere, if_pos ⟨hlength, hword, hthere⟩, check_map]
        rfl
      · rw [Bytes.slice?, if_neg fun h => hthere h.2, if_neg fun h => hthere h.2.2]
        rfl
    · rw [if_neg hword, if_neg fun h => hword h.2.1]
      rfl
  · have hlength : (bs.take 8).length ≠ 8 := by
      rw [length_take]
      omega
    rw [Bytes.slice?, if_neg fun h => h8 h.2, if_neg fun h => hlength h.1]
    rfl

theorem row_eq (bs : Bytes) :
    counted (bytes r.Carrier) "Row" (fun _ => row r.Carrier) bs = check (Row.read bs) := by
  rw [Row.read_eq_counted]
  refine counted_eq fun n hn => ?_
  have hdata : ((bs.drop 8).take (n * bytes r.Carrier)).length = n * bytes r.Carrier := by
    rw [length_take, length_drop]
    omega
  rw [row, Bytes.chunks?_eq r.bytes_pos hdata, total_some_bind, Bytes.pieces_take le_rfl,
    Row.readMany_eq_mapM, check_map, check_mapM]

theorem matrix_eq (h : bs.length < memoryLimit) :
    counted 2048 "BitMatrix" matrix bs = check (BitMatrix.read bs) := by
  rw [BitMatrix.read_eq_counted]
  refine counted_eq fun n hn => ?_
  have hroom : room? n 2048 = some n := if_pos (by omega)
  have hdata : ((bs.drop 8).take (n * 2048)).length = n * 2048 := by
    rw [length_take, length_drop]
    omega
  rw [matrix, hroom, total_some_bind, if_pos hdata, BitMatrix.squaresOf_eq_map,
    BitMatrix.squaresOf_eq_map, Bytes.pieces_take le_rfl]
  rfl

/-- The bytes of a bit string end within a word, whatever its length. -/
theorem bits_eq (bs : Bytes) : bits bs = check (BitString.read bs) := by
  rw [bits, BitString.read_eq]
  by_cases h8 : 8 ≤ bs.length
  · have hlength : (bs.take 8).length = 8 := by rw [length_take, Nat.min_eq_left h8]
    have hheader : bs.slice? 0 8 = some (bs.take 8) := Bytes.slice?_eq ⟨by omega, h8⟩
    have hcount := Bytes.toNatLE_header_lt hlength
    rw [hheader, found_some_bind]
    dsimp only
    generalize Bytes.toNatLE (bs.take 8) = n at *
    have hstop : addIn? 64 8 (BitString.bytesFor n) = some (8 + BitString.bytesFor n) :=
      addIn?_eq (by rw [BitString.bytesFor]; omega)
    rw [hstop, total_some_bind]
    by_cases hthere : 8 + BitString.bytesFor n ≤ bs.length
    · have hdata : ((bs.drop 8).take (BitString.bytesFor n)).length = BitString.bytesFor n := by
        rw [length_take, length_drop]
        omega
      rw [Bytes.slice?_eq ⟨by omega, hthere⟩, found_some_bind, Nat.add_sub_cancel_left,
        BitString.ofBytes_eq hdata]
      by_cases hclear : BitString.clearPadding ⟨(bs.drop 8).take (BitString.bytesFor n), n⟩
          = ⟨(bs.drop 8).take (BitString.bytesFor n), n⟩
      · rw [if_pos ⟨hlength, hdata, hclear⟩, hclear]
        exact if_neg (not_not.mpr rfl)
      · rw [if_neg fun h => hclear h.2.2]
        exact if_pos fun h => hclear (BitString.same_bytes_iff.mp h)
    · have hdata : ((bs.drop 8).take (BitString.bytesFor n)).length ≠ BitString.bytesFor n := by
        rw [length_take, length_drop]
        omega
      rw [Bytes.slice?, if_neg fun h => hthere h.2, if_neg fun h => hdata h.2.1]
      rfl
  · have hlength : (bs.take 8).length ≠ 8 := by
      rw [length_take]
      omega
    rw [Bytes.slice?, if_neg fun h => h8 h.2, if_neg fun h => hlength h.1]
    rfl

end Equal

end Unpack

/-- What is packed in a fixed number of bytes. -/
inductive PackedKind where
  | element (r : RingName)
  | item (r s : RingName) (kind : ItemKind)
  | rectangle (r s : RingName)

namespace PackedKind

/-- The values of a kind. -/
abbrev Value : PackedKind → Type
  | element r => r.Carrier
  | item r s kind => ItemType.ItemOf r.Carrier s.Carrier kind
  | rectangle r s => Rectangle r.Carrier s.Carrier

/-- The number of bytes of a packed value. -/
def size : PackedKind → Nat
  | element r => bytes r.Carrier
  | item r s kind => Stored.size (ItemType.ItemOf r.Carrier s.Carrier kind)
  | rectangle r s => Rectangle.packedLength r.Carrier s.Carrier

/-- The bytes of a value. -/
def pack : (k : PackedKind) → k.Value → Bytes
  | element _, x => encode x
  | item _ _ _, x => Stored.pack x
  | rectangle _ _, x => x.toBytes

/-- The value with the given bytes. -/
def unpack : (k : PackedKind) → Bytes → Except Error k.Value
  | element r, bs => unpackElement r.Carrier bs
  | item _ _ _, bs => Stored.unpack bs
  | rectangle _ _, bs => Rectangle.ofBytes bs

/-- The value with the given bytes, found with guards.  Those of an element are compared with
their number and then taken as a whole. -/
def guarded : (k : PackedKind) → Bytes → Except Failure k.Value
  | element r, bs => Unpack.check (unpackElement r.Carrier bs)
  | item r s kind, bs => Unpack.item r.Carrier s.Carrier kind bs
  | rectangle r s, bs => Unpack.rectangle r.Carrier s.Carrier bs

theorem unpack_eq_ok_iff (k : PackedKind) (bs : Bytes) (x : k.Value) :
    k.unpack bs = .ok x ↔ bs = k.pack x := by
  cases k with
  | element r => exact unpackElement_eq_ok_iff r bs x
  | item r s kind => exact LawfulStored.unpack_iff bs x
  | rectangle r s => exact Rectangle.ofBytes_eq_ok_iff

theorem length_pack (k : PackedKind) (x : k.Value) : (k.pack x).length = k.size := by
  cases k with
  | element r => exact Bytes.length_ofNatLE ..
  | item r s kind => exact LawfulStored.length_pack x
  | rectangle r s => exact Rectangle.length_toBytes x

/-- **Unpacking a fixed number of bytes never faults.** -/
theorem guarded_eq (k : PackedKind) (bs : Bytes) : k.guarded bs = Unpack.check (k.unpack bs) := by
  cases k with
  | element r => rfl
  | item r s kind => exact Unpack.item_eq r s kind bs
  | rectangle r s => exact Unpack.rectangle_eq r s bs

end PackedKind

/-- What is packed with its length in front. -/
inductive CountedKind where
  | bits
  | matrix
  | row (r : RingName)

namespace CountedKind

/-- The values of a kind. -/
abbrev Value : CountedKind → Type
  | bits => BitString
  | matrix => BitMatrix
  | row r => Row r.Carrier

/-- What a value has to be like: bits fill their bytes, with nothing past the last one, and
their number is a word. -/
def Sound : (k : CountedKind) → k.Value → Prop
  | bits, v => v.WellFormed ∧ v.length < 2 ^ 64
  | matrix, _ => True
  | row _, _ => True

/-- The bytes of a value. -/
def pack : (k : CountedKind) → k.Value → Bytes
  | bits, v => v.toBytes
  | matrix, m => m.toBytes
  | row _, a => a.toBytes

/-- Reads a value from the front and says how many bytes it took. -/
def read : (k : CountedKind) → Bytes → Except Error (k.Value × Nat)
  | bits, bs => BitString.read bs
  | matrix, bs => BitMatrix.read bs
  | row _, bs => Row.read bs

/-- Reads a value with guards. -/
def guarded : (k : CountedKind) → Bytes → Except Failure (k.Value × Nat)
  | bits, bs => Unpack.bits bs
  | matrix, bs => Unpack.counted 2048 "BitMatrix" Unpack.matrix bs
  | row r, bs => Unpack.counted (bytes r.Carrier) "Row" (fun _ => Unpack.row r.Carrier) bs

theorem read_eq_ok_iff (k : CountedKind) (bs : Bytes) (x : k.Value) (n : Nat) :
    k.read bs = .ok (x, n) ↔ k.Sound x ∧ n < 2 ^ 64 ∧ n ≤ bs.length ∧ bs.take n = k.pack x := by
  cases k with
  | bits => exact BitString.read_eq_ok_iff
  | matrix => exact BitMatrix.read_eq_ok_iff.trans (iff_of_eq (true_and _)).symm
  | row r => exact Row.read_eq_ok_iff.trans (iff_of_eq (true_and _)).symm

/-- **Reading a length and what it asks for never faults**, whatever the length says. -/
theorem guarded_eq (k : CountedKind) {bs : Bytes} (h : bs.length < memoryLimit) :
    k.guarded bs = Unpack.check (k.read bs) := by
  cases k with
  | bits => exact Unpack.bits_eq bs
  | matrix => exact Unpack.matrix_eq h
  | row r => exact Unpack.row_eq r bs

end CountedKind

/-- **Unpacking accepts exactly what is packed, and nothing makes it fault.**  Elements, items and
rectangles are unpacked from the bytes they are packed in, of which there is a fixed number, and
from no others; for elements these are the integers below the order of the ring.  Bit strings,
matrices and rows are read from the front exactly where the bytes of a sound value are there.
The guarded ways come to the same results and errors on any bytes that memory has room for. -/
theorem unpack_exact :
    (∀ (k : PackedKind) (bs : Bytes) (x : k.Value),
      (k.unpack bs = .ok x ↔ bs = k.pack x) ∧ (k.pack x).length = k.size) ∧
    (∀ (r : RingName) (bs : Bytes) (x : Nat),
      ShareRing.toNat <$> (PackedKind.element r).unpack bs = .ok x ↔
        x < r.order ∧ bs = Bytes.ofNatLE (bytes r.Carrier) x) ∧
    (∀ (k : CountedKind) (bs : Bytes) (x : k.Value) (n : Nat),
      k.read bs = .ok (x, n) ↔
        k.Sound x ∧ n < 2 ^ 64 ∧ n ≤ bs.length ∧ bs.take n = k.pack x) ∧
    ∀ bs : Bytes, bs.length < memoryLimit →
      (∀ k : PackedKind, k.guarded bs = Unpack.check (k.unpack bs) ∧
        k.guarded bs ≠ .error .fault) ∧
      ∀ k : CountedKind, k.guarded bs = Unpack.check (k.read bs) ∧
        k.guarded bs ≠ .error .fault := by
  refine ⟨fun k bs x => ⟨k.unpack_eq_ok_iff bs x, k.length_pack x⟩, toNat_unpackElement_iff,
    CountedKind.read_eq_ok_iff, fun bs h => ⟨fun k => ?_, fun k => ?_⟩⟩
  · have hguarded := k.guarded_eq bs
    exact ⟨hguarded, hguarded ▸ Unpack.check_ne_fault _⟩
  · have hguarded := k.guarded_eq h
    exact ⟨hguarded, hguarded ▸ Unpack.check_ne_fault _⟩

/-- The largest length that can be asked for is refused by all, and nothing faults. -/
theorem unpack_exact_largest :
    (replicate 8 255 : Bytes).length < memoryLimit ∧
    CountedKind.bits.guarded (replicate 8 255) = .error (.error (.encoding "BitVector")) ∧
    CountedKind.matrix.guarded (replicate 8 255) = .error (.error (.encoding "BitMatrix")) ∧
    (CountedKind.row .gf2).guarded (replicate 8 255) = .error (.error (.encoding "Row")) := by
  have hroom : (replicate 8 255 : Bytes).length < memoryLimit := by decide
  have hall := (unpack_exact.2.2.2 (replicate 8 255) hroom).2
  exact ⟨hroom, (hall .bits).1.trans (by decide), (hall .matrix).1.trans (by decide),
    (hall (.row .gf2)).1.trans rfl⟩

end Beaver
