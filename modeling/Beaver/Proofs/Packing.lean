import Mathlib
import Beaver.Proofs.BitStrings
import Beaver.Proofs.Faults.Guards
import Beaver.Proofs.PrepFile.Items

/-!
# Packed rows, rectangles and bits

What a value is packed in is also all that it is unpacked from.  A rectangle is cut into its
rows at fixed places, like the records of a file.  Rows, matrices and bit strings start with
their length and are read from the front of longer data: what the length asks for has to be
there, and a bit string must not use the places past its last bit.  Rows and matrices are one
construction, a count and as many items of one size (`counted_eq_ok_iff`).
-/

namespace Beaver

open List
open ShareRing

variable {ε α β : Type} {g : β → α} {xs : List α} {ys : List β}

theorem map_eq_ok_iff {x : Except ε α} {g : α → β} {b : β} :
    g <$> x = .ok b ↔ ∃ a, x = .ok a ∧ g a = b := by
  cases x with
  | error e => simp [Functor.map, Except.map]
  | ok a => simp [Functor.map, Except.map]

/-- What a list is mapped to, if nothing fails. -/
theorem mapM_eq_ok_iff {f : α → Except ε β} (h : ∀ x y, f x = .ok y ↔ x = g y) :
    xs.mapM f = .ok ys ↔ xs = ys.map g := by
  induction xs generalizing ys with
  | nil =>
    cases ys with
    | nil => simp [pure, Except.pure]
    | cons y ys => simp [pure, Except.pure]
  | cons x xs ih =>
    simp only [mapM_cons, bind_eq_ok_iff, h, ih]
    cases ys with
    | nil => simp [pure, Except.pure]
    | cons y ys =>
      constructor
      · rintro ⟨_, rfl, _, rfl, hpure⟩
        cases hpure
        rfl
      · intro hcons
        obtain ⟨rfl, rfl⟩ := cons.inj hcons
        exact ⟨y, rfl, ys, rfl, rfl⟩

/-- A list that is mapped by a function with an inverse. -/
theorem map_eq_iff_of_inverse {f : α → β} (hgf : ∀ x ∈ xs, g (f x) = x) (hfg : ∀ y, f (g y) = y) :
    xs.map f = ys ↔ xs = ys.map g := by
  constructor
  · rintro rfl
    rw [map_map]
    exact (map_id xs).symm.trans (map_congr_left fun x hx => (hgf x hx).symm)
  · rintro rfl
    rw [map_map]
    exact (map_congr_left fun y _ => hfg y).trans (map_id ys)

namespace Bytes

/-- The first `n` pieces of the given size. -/
def pieces (size : Nat) : Nat → Bytes → List Bytes
  | 0, _ => []
  | n + 1, bs => bs.take size :: pieces size n (bs.drop size)

variable {size n : Nat} {bs : Bytes}

theorem length_of_mem_pieces (h : n * size ≤ bs.length) :
    ∀ c ∈ pieces size n bs, c.length = size := by
  induction n generalizing bs with
  | zero => simp [pieces]
  | succ n ih =>
    rw [Nat.succ_mul] at h
    rw [pieces, forall_mem_cons, length_take]
    exact ⟨by omega, ih (by rw [length_drop]; omega)⟩

/-- Pieces one after the other are found by cutting at their size. -/
theorem pieces_eq_iff {cs : List Bytes} (hcs : ∀ c ∈ cs, c.length = size)
    (hbs : n * size ≤ bs.length) :
    pieces size n bs = cs ↔ cs.length = n ∧ bs.take (n * size) = cs.flatten := by
  induction n generalizing bs cs with
  | zero =>
    cases cs with
    | nil => simp [pieces]
    | cons c cs => simp [pieces]
  | succ n ih =>
    cases cs with
    | nil => simp [pieces]
    | cons c cs =>
      have hc : c.length = size := hcs c mem_cons_self
      have htail : ∀ c ∈ cs, c.length = size := fun d hd => hcs d (mem_cons_of_mem c hd)
      rw [Nat.succ_mul] at hbs
      have hrest : n * size ≤ (bs.drop size).length := by
        rw [length_drop]
        omega
      have hfront : (bs.take size).length = c.length := by
        rw [length_take, hc, Nat.min_eq_left (by omega)]
      rw [pieces, cons.injEq, ih htail hrest, Nat.succ_mul, Nat.add_comm (n * size),
        take_add, flatten_cons, length_cons, Nat.add_right_cancel_iff]
      constructor
      · rintro ⟨hhead, hlength, hbody⟩
        exact ⟨hlength, by rw [hhead, hbody]⟩
      · rintro ⟨hlength, happend⟩
        obtain ⟨hhead, hbody⟩ := append_inj happend hfront
        exact ⟨hhead, hlength, hbody⟩

/-- A count is a word. -/
theorem toNatLE_header_lt (h : (bs.take 8).length = 8) : toNatLE (bs.take 8) < 2 ^ 64 := by
  have hlt := toNatLE_lt (bs.take 8)
  rwa [h] at hlt

/-- **A count and what it announces, at the front.** -/
theorem take_eq_counted_iff {body : Bytes} {k : Nat} (hn : n < 2 ^ 64) :
    k ≤ bs.length ∧ bs.take k = ofNatLE 8 n ++ body ↔
      (bs.take 8).length = 8 ∧ toNatLE (bs.take 8) = n ∧ k = 8 + body.length ∧ k ≤ bs.length ∧
        (bs.drop 8).take body.length = body := by
  have hcount : toNatLE (ofNatLE 8 n) = n := by
    rw [toNatLE_ofNatLE, Nat.pow_eq, Nat.mod_eq_of_lt (by simpa using hn)]
  constructor
  · rintro ⟨hk, hfront⟩
    have hlength := congrArg length hfront
    rw [length_take, Nat.min_eq_left hk, length_append, length_ofNatLE] at hlength
    subst hlength
    rw [take_add] at hfront
    have height : (bs.take 8).length = (ofNatLE 8 n).length := by
      rw [length_take, length_ofNatLE, Nat.min_eq_left (by omega)]
    obtain ⟨hheader, hbody⟩ := append_inj hfront height
    exact ⟨height.trans (length_ofNatLE ..), by rw [hheader, hcount], rfl, hk, hbody⟩
  · rintro ⟨height, rfl, rfl, hk, hbody⟩
    have hheader : ofNatLE 8 (toNatLE (bs.take 8)) = bs.take 8 := by
      have hback := ofNatLE_toNatLE (bs.take 8)
      rwa [height] at hback
    exact ⟨hk, by rw [take_add, hbody, hheader]⟩

end Bytes

section Counted

variable {α : Type}

/-- Reads a count and as many items of the given size, all of which have to be there, and says
how many bytes it took. -/
def counted (size : Nat) (label : String) (items : Nat → Bytes → Except Error α) (bs : Bytes) :
    Except Error (α × Nat) :=
  let n := Bytes.toNatLE (bs.take 8)
  if (bs.take 8).length = 8 ∧ 8 + n * size < 2 ^ 64 ∧ 8 + n * size ≤ bs.length then
    (·, 8 + n * size) <$> items n (bs.drop 8)
  else .error (.encoding label)

variable {size : Nat} {bs : Bytes}

/-- A size that is no word or asks for too much. -/
theorem unfit_iff : size ≥ Nat.pow 2 64 ∨ bs.length < size ↔
    ¬(size < 2 ^ 64 ∧ size ≤ bs.length) := by
  rw [Nat.pow_eq]
  omega

/-- **Counted items are read exactly where their bytes are at the front.** -/
theorem counted_eq_ok_iff {label : String} {items : Nat → Bytes → Except Error α} (count : α → Nat)
    (pack : α → Bytes) (hsize : 0 < size) (hpack : ∀ x, (pack x).length = count x * size)
    (hitems : ∀ n bs x, n * size ≤ bs.length →
      (items n bs = .ok x ↔ count x = n ∧ bs.take (n * size) = pack x))
    {x : α} {k : Nat} :
    counted size label items bs = .ok (x, k) ↔
      k < 2 ^ 64 ∧ k ≤ bs.length ∧ bs.take k = Bytes.ofNatLE 8 (count x) ++ pack x := by
  constructor
  · intro h
    rw [counted] at h
    split at h
    · next hthere =>
        obtain ⟨h8, hword, hlength⟩ := hthere
        obtain ⟨y, hy, hpair⟩ := map_eq_ok_iff.mp h
        obtain ⟨rfl, rfl⟩ := Prod.mk.inj hpair
        rw [hitems _ _ _ (by rw [length_drop]; omega)] at hy
        obtain ⟨hcount, hbody⟩ := hy
        rw [← hcount] at hword hlength hbody ⊢
        refine ⟨hword, (Bytes.take_eq_counted_iff (hcount ▸ Bytes.toNatLE_header_lt h8)).mpr
          ⟨h8, hcount.symm, ?_, hlength, ?_⟩⟩
        · rw [hpack]
        · rw [hpack]
          exact hbody
    · cases h
  · rintro ⟨hword, hk, hfront⟩
    have hlength := congrArg length hfront
    rw [length_take, Nat.min_eq_left hk, length_append, Bytes.length_ofNatLE,
      hpack] at hlength
    have hcount := Nat.le_mul_of_pos_right (count x) hsize
    obtain ⟨h8, hn, -, -, hbody⟩ := (Bytes.take_eq_counted_iff (by omega)).mp ⟨hk, hfront⟩
    rw [hpack] at hbody
    rw [counted, hn, if_pos ⟨h8, by omega, by omega⟩]
    refine map_eq_ok_iff.mpr ⟨x, ?_, by rw [hlength]⟩
    exact (hitems _ _ _ (by rw [length_drop]; omega)).mpr ⟨rfl, hbody⟩

end Counted

section Elements

variable {α : Type} [ShareRing α]

/-- Elements are read piece by piece. -/
theorem Row.readMany_eq_mapM (n : Nat) (bs : Bytes) :
    readMany n bs = (bs.pieces (bytes α) n).mapM (unpackElement α) := by
  induction n generalizing bs with
  | zero => rfl
  | succ n ih =>
    rw [readMany, Bytes.pieces, mapM_cons, unpackElement, ih]
    cases (decode? (bs.take (bytes α)) : Option α) with
    | none => rfl
    | some x =>
      cases (Bytes.pieces (bytes α) n (bs.drop (bytes α))).mapM (unpackElement α) with
      | error e => rfl
      | ok xs => rfl

theorem Rectangle.readRows_eq_readMany (n : Nat) (bs : Bytes) :
    readRows n bs = (Row.readMany n bs : Except Error (List α)) := by
  induction n generalizing bs with
  | zero => rfl
  | succ n ih =>
    rewrite [readRows, Row.readMany, ih]
    rfl

theorem Row.read_eq_counted (bs : Bytes) :
    (read bs : Except Error (Row α × Nat))
      = counted (bytes α) "Row" (fun n bs => mk <$> readMany n bs) bs := by
  simp only [read, counted, unfit_iff]
  by_cases h8 : (bs.take 8).length = 8
  · by_cases hthere : 8 + Bytes.toNatLE (bs.take 8) * bytes α < 2 ^ 64
        ∧ 8 + Bytes.toNatLE (bs.take 8) * bytes α ≤ bs.length
    · rw [if_neg (not_not.mpr h8), if_neg (not_not.mpr hthere), if_pos ⟨h8, hthere⟩]
      cases (readMany (Bytes.toNatLE (bs.take 8)) (bs.drop 8) : Except Error (List α)) with
      | error e => rfl
      | ok xs => rfl
    · simp only [h8, hthere, ne_eq, not_true_eq_false, not_false_eq_true, if_true, true_and, if_false]
      rfl
  · simp only [h8, ne_eq, not_false_eq_true, if_true, false_and, if_false]
    rfl

end Elements

section Rings

variable {r : RingName}

/-- The integers that are read as elements are those below the order. -/
theorem toNat_unpackElement_iff (r : RingName) (bs : Bytes) (x : Nat) :
    ShareRing.toNat <$> unpackElement r.Carrier bs = .ok x ↔
      x < r.order ∧ bs = Bytes.ofNatLE (bytes r.Carrier) x := by
  constructor
  · intro h
    obtain ⟨a, ha, rfl⟩ := map_eq_ok_iff.mp h
    exact ⟨RingName.toNat_lt_order a, (unpackElement_eq_ok_iff r bs a).mp ha⟩
  · rintro ⟨hx, rfl⟩
    obtain ⟨a, ha⟩ := Option.isSome_iff_exists.mp ((r.ofNat?_isSome_iff x).mpr hx)
    obtain rfl := r.toNat_of_ofNat? ha
    exact map_eq_ok_iff.mpr ⟨a, (unpackElement_eq_ok_iff r _ a).mpr rfl, rfl⟩

variable {bs : Bytes} {u v : RingName}

theorem Row.readMany_eq_ok_iff {n : Nat} {xs : List r.Carrier}
    (h : n * bytes r.Carrier ≤ bs.length) :
    readMany n bs = .ok xs ↔ xs.length = n ∧ bs.take (n * bytes r.Carrier) = xs.flatMap encode := by
  have hsize : ∀ c ∈ xs.map encode, c.length = bytes r.Carrier := by
    intro c hc
    obtain ⟨x, -, rfl⟩ := mem_map.mp hc
    exact Bytes.length_ofNatLE ..
  rw [readMany_eq_mapM, mapM_eq_ok_iff (unpackElement_eq_ok_iff r), Bytes.pieces_eq_iff hsize h,
    length_map, flatMap]

theorem Row.read_eq_ok_iff {a : Row r.Carrier} {k : Nat} :
    read bs = .ok (a, k) ↔ k < 2 ^ 64 ∧ k ≤ bs.length ∧ bs.take k = a.toBytes := by
  rw [read_eq_counted]
  refine counted_eq_ok_iff (fun a : Row r.Carrier => a.values.length) packed r.bytes_pos ?_ ?_
  · intro a
    simp [packed, length_flatMap, encode]
  · intro n bs a h
    rw [map_eq_ok_iff]
    simp only [readMany_eq_ok_iff h]
    constructor
    · rintro ⟨xs, hxs, rfl⟩
      exact hxs
    · intro ha
      exact ⟨a.values, ha, rfl⟩

theorem Rectangle.length_toBytes (x : Rectangle u.Carrier v.Carrier) :
    x.toBytes.length = packedLength u.Carrier v.Carrier := by
  simp [toBytes, packedLength, length_flatMap, encode]

/-- **A rectangle is read from its bytes and no others.** -/
theorem Rectangle.ofBytes_eq_ok_iff {x : Rectangle u.Carrier v.Carrier} :
    ofBytes bs = .ok x ↔ bs = x.toBytes := by
  have hrows : x.rows.toList.length = bits u.Carrier := by simp
  have hlength := length_toBytes x
  simp only [ofBytes, bind_eq_ok_iff, ofRows_eq_ok_iff, readRows_eq_readMany]
  constructor
  · rintro ⟨_, hcheck, _, hread, rfl⟩
    have hsize := checkLength_ok hcheck
    rw [Row.readMany_eq_ok_iff hsize.le] at hread
    rw [← take_length (l := bs), ← hsize]
    exact hread.2
  · rintro rfl
    refine ⟨(), by rw [checkLength, if_pos hlength.symm], x.rows.toList, ?_, rfl⟩
    rw [Row.readMany_eq_ok_iff hlength.ge, hrows]
    exact ⟨rfl, take_of_length_le hlength.le⟩

end Rings

namespace BitMatrix

theorem squaresOf_eq_map (n : Nat) (bs : Bytes) :
    squaresOf n bs = (bs.pieces 2048 n).map Square.ofBytes := by
  induction n generalizing bs with
  | zero => rfl
  | succ n ih => rw [squaresOf, Bytes.pieces, map_cons, ih]

variable {bs : Bytes}

/-- Bytes are cut into the squares they are made of. -/
theorem squaresOf_eq_iff {n : Nat} {squares : List Square} (h : n * 2048 ≤ bs.length) :
    squaresOf n bs = squares ↔
      squares.length = n ∧ bs.take (n * 2048) = squares.flatMap Square.toBytes := by
  have hsize : ∀ c ∈ squares.map Square.toBytes, c.length = 2048 := by
    intro c hc
    obtain ⟨s, -, rfl⟩ := mem_map.mp hc
    exact s.length_toBytes
  have hback : ∀ c ∈ bs.pieces 2048 n, (Square.ofBytes c).toBytes = c := fun c hc =>
    Square.toBytes_ofBytes (Bytes.length_of_mem_pieces h c hc)
  rw [squaresOf_eq_map, map_eq_iff_of_inverse hback Square.ofBytes_toBytes,
    Bytes.pieces_eq_iff hsize h, length_map, flatMap]

theorem read_eq_counted (bs : Bytes) :
    read bs = counted 2048 "BitMatrix" (fun n bs => .ok ⟨squaresOf n bs⟩) bs := by
  simp only [read, counted, unfit_iff]
  by_cases h8 : (bs.take 8).length = 8
  · by_cases hthere : 8 + Bytes.toNatLE (bs.take 8) * 2048 < 2 ^ 64
        ∧ 8 + Bytes.toNatLE (bs.take 8) * 2048 ≤ bs.length
    · rw [if_neg (not_not.mpr h8), if_neg (not_not.mpr hthere), if_pos ⟨h8, hthere⟩]
      rfl
    · simp only [h8, hthere, ne_eq, not_true_eq_false, not_false_eq_true, if_true, true_and, if_false]
      rfl
  · simp only [h8, ne_eq, not_false_eq_true, if_true, false_and, if_false]
    rfl

theorem read_eq_ok_iff {m : BitMatrix} {k : Nat} :
    read bs = .ok (m, k) ↔ k < 2 ^ 64 ∧ k ≤ bs.length ∧ bs.take k = m.toBytes := by
  rw [read_eq_counted]
  refine counted_eq_ok_iff (fun m : BitMatrix => m.squares.length)
    (fun m => m.squares.flatMap Square.toBytes) (by decide) ?_ ?_
  · intro m
    simp [length_flatMap, Square.length_toBytes]
  · intro n bs m h
    rw [← squaresOf_eq_iff h, Except.ok.injEq]
    exact ⟨fun hm => congrArg squares hm, fun hm => congrArg mk hm⟩

end BitMatrix

namespace BitString

variable {v : BitString}

/-- Clearing the padding changes nothing but bytes. -/
theorem same_bytes_iff : v.clearPadding.bytes = v.bytes ↔ v.clearPadding = v := by
  constructor
  · intro hbytes
    have hlength := (length_clearPadding v).1
    generalize v.clearPadding = u at *
    cases u
    cases v
    exact congrArg₂ mk hbytes hlength
  · intro h
    rw [h]

/-- Padding that is clear stays as it is. -/
theorem WellFormed.clearPadding_eq (hv : v.WellFormed) : v.clearPadding = v := by
  have hbytes : v.clearPadding.bytes = v.bytes := by
    refine Bytes.ext_bit (length_clearPadding v).2 fun i => ?_
    rw [bit_clearPadding hv.length_bytes]
    by_cases hi : i < v.length
    · simp [hi]
    · simp [hi, hv.clear i (Nat.le_of_not_lt hi)]
  exact same_bytes_iff.mp hbytes

/-- A bit string is read if its header, its bytes and clear padding are there. -/
theorem read_eq (bs : Bytes) : read bs =
    let length := Bytes.toNatLE (bs.take 8)
    let v : BitString := ⟨(bs.drop 8).take (bytesFor length), length⟩
    if (bs.take 8).length = 8 ∧ v.bytes.length = bytesFor length ∧ v.clearPadding = v then
      .ok (v, 8 + bytesFor length)
    else .error (.encoding "BitVector") := by
  dsimp only
  generalize hn : Bytes.toNatLE (bs.take 8) = n
  by_cases h8 : (bs.take 8).length = 8
  · by_cases hdata : ((bs.drop 8).take (bytesFor n)).length = bytesFor n
    · simp only [read, hn, h8, hdata, ofBytes_eq hdata, ne_eq, not_true_eq_false, if_false, true_and]
      by_cases hclear : clearPadding ⟨(bs.drop 8).take (bytesFor n), n⟩
          = ⟨(bs.drop 8).take (bytesFor n), n⟩
      · rw [if_pos hclear, hclear]
        exact if_neg (not_not.mpr rfl)
      · rw [if_neg hclear]
        exact if_pos fun h => hclear (same_bytes_iff.mp h)
    · simp only [read, hn, h8, hdata, ne_eq, not_true_eq_false, not_false_eq_true, if_false, if_true,
        false_and, and_false]
      rfl
  · simp only [read, h8, ne_eq, not_false_eq_true, if_true, false_and, if_false]
    rfl

/-- **A bit string is read from the front** exactly where a well-formed one is. -/
theorem read_eq_ok_iff {bs : Bytes} {k : Nat} :
    read bs = .ok (v, k) ↔ (v.WellFormed ∧ v.length < 2 ^ 64) ∧
      k < 2 ^ 64 ∧ k ≤ bs.length ∧ bs.take k = v.toBytes := by
  rw [read_eq]
  dsimp only
  constructor
  · intro h
    split at h
    · next hthere =>
        obtain ⟨h8, hdata, hpadding⟩ := hthere
        obtain ⟨rfl, rfl⟩ := Prod.mk.inj (Except.ok.inj h)
        have hword := Bytes.toNatLE_header_lt h8
        have hlength : 8 + bytesFor (Bytes.toNatLE (bs.take 8)) ≤ bs.length := by
          rw [length_take] at h8
          rw [length_take, length_drop] at hdata
          omega
        refine ⟨⟨hpadding ▸ wellFormed_clearPadding hdata, hword⟩, ?_, ?_⟩
        · simp only [bytesFor]
          omega
        · refine (Bytes.take_eq_counted_iff hword).mpr ⟨h8, rfl, ?_, hlength, ?_⟩
          · rw [hdata]
          · rw [hdata]
    · cases h
  · rintro ⟨⟨hv, hword⟩, -, hfront⟩
    obtain ⟨h8, hn, rfl, hk, hbody⟩ := (Bytes.take_eq_counted_iff hword).mp hfront
    rw [hv.length_bytes] at hbody hk ⊢
    rw [hn, hbody, if_pos ⟨h8, hv.length_bytes, hv.clearPadding_eq⟩]

end BitString

end Beaver
