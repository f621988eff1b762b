import Mathlib
import Beaver.Proofs.Loops
import Beaver.Proofs.Ring.Instances
import Beaver.Rectangle
import Beaver.Row
import Beaver.Share.Item

/-!
# The messages that are accepted

A form says what the values of a type are as plain data, how data are written whether or not
they are those of a value, and which data are: integers below the order of their ring,
rectangles with a row for each bit, squares of 2048 bytes, lists with fewer than `2 ^ 64`
items.  A wire is exact for a form if it reads a value from a message just when the value is
sound and the message starts with its encoding.  Records, lists and rectangles are exact
because their parts are, so a message of the protocols is accepted just when it starts with
what sound data are written as (`MessageKind.reads_exactly`).
-/

namespace Beaver

open List
open ShareRing

namespace Wire

theorem decode_bytes_iff (n : Nat) (bs front rest : Bytes) :
    (bytes n).decode bs = .ok (front, rest) ↔ front.length = n ∧ bs = front ++ rest := by
  constructor
  · intro h
    simp only [bytes] at h
    split at h
    · next hlength =>
        simp only [Except.ok.injEq, Prod.mk.injEq] at h
        obtain ⟨rfl, rfl⟩ := h
        exact ⟨hlength, (take_append_drop n bs).symm⟩
    · cases h
  · rintro ⟨hlength, rfl⟩
    exact carries_bytes hlength rest

theorem decode_number_iff (width : Nat) (bs : Bytes) (x : Nat) (rest : Bytes) :
    (number width).decode bs = .ok (x, rest)
      ↔ x < 256 ^ width ∧ bs = Bytes.ofNatLE width x ++ rest := by
  constructor
  · intro h
    obtain ⟨⟨front, rest'⟩, hfront, hx⟩ := bind_eq_ok_iff.mp h
    obtain ⟨hlength, rfl⟩ := (decode_bytes_iff ..).mp hfront
    simp only [Except.ok.injEq, Prod.mk.injEq] at hx
    obtain ⟨rfl, rfl⟩ := hx
    have hwritten : Bytes.ofNatLE width (Bytes.toNatLE front) = front := by
      rw [← hlength, Bytes.ofNatLE_toNatLE]
    refine ⟨?_, by rw [hwritten]⟩
    rw [← hwritten, Bytes.toNatLE_ofNatLE, Nat.pow_eq]
    exact Nat.mod_lt _ (by positivity)
  · rintro ⟨hlt, rfl⟩
    exact carries_number hlt rest

theorem length_encode_count (k : Nat) : (count.encode k).length = 8 :=
  Bytes.length_ofNatLE 8 k

theorem decode_count_iff (bs : Bytes) (n : Nat) (rest : Bytes) :
    count.decode bs = .ok (n, rest) ↔ n < 2 ^ 64 ∧ bs = count.encode n ++ rest :=
  decode_number_iff 8 bs n rest

end Wire

/-- What values of a type are as plain data. -/
structure Form (α : Type) where
  Data : Type
  /-- The data of a value. -/
  view : α → Data
  /-- How data are written, also those of no value. -/
  write : Data → Bytes
  /-- Which data are those of a value that can be sent. -/
  Sound : Data → Prop

/-- A wire reads the sound values of a form, each from the messages that start with what it
is written as. -/
structure Wire.Exact {α : Type} (w : Wire α) (f : Form α) : Prop where
  encode_eq (a : α) : w.encode a = f.write (f.view a)
  onto {d : f.Data} (h : f.Sound d) : ∃ a, f.view a = d
  decode_iff (bs : Bytes) (a : α) (rest : Bytes) :
    w.decode bs = .ok (a, rest) ↔ f.Sound (f.view a) ∧ bs = w.encode a ++ rest

namespace Form

variable {α β : Type}

/-- Two values after each other. -/
def pair (f : Form α) (g : Form β) : Form (α × β) where
  Data := f.Data × g.Data
  view p := (f.view p.1, g.view p.2)
  write d := f.write d.1 ++ g.write d.2
  Sound d := f.Sound d.1 ∧ g.Sound d.2

/-- Values with the data of their readings in another type. -/
def of (f : Form α) (g : β → α) : Form β where
  Data := f.Data
  view b := f.view (g b)
  write := f.write
  Sound := f.Sound

/-- A list, whose length has to fit in a machine word. -/
def list (f : Form α) : Form (List α) where
  Data := List f.Data
  view := map f.view
  write ds := Wire.count.encode ds.length ++ ds.flatMap f.write
  Sound ds := ds.length < 2 ^ 64 ∧ ∀ d ∈ ds, f.Sound d

theorem sound_list_iff {f : Form α} {xs : List α} :
    f.list.Sound (f.list.view xs) ↔ xs.length < 2 ^ 64 ∧ ∀ x ∈ xs, f.Sound (f.view x) := by
  simp [list]

/-- Any block. -/
def block : Form Block where
  Data := Block
  view := id
  write := Block.toBytes
  Sound _ := True

/-- A square as the list of its bytes, of which there have to be 2048. -/
def square : Form Square where
  Data := Bytes
  view := Square.toBytes
  write bs := Wire.count.encode bs.length ++ bs
  Sound bs := bs.length = 2048

end Form

namespace Wire.Exact

variable {α β : Type} {v : Wire α} {w : Wire β} {f : Form α} {g : Form β}

theorem pair (hv : v.Exact f) (hw : w.Exact g) : (v.pair w).Exact (f.pair g) where
  encode_eq p := congrArg₂ (· ++ ·) (hv.encode_eq p.1) (hw.encode_eq p.2)
  onto := by
    rintro ⟨d, e⟩ ⟨hd, he⟩
    obtain ⟨a, rfl⟩ := hv.onto hd
    obtain ⟨b, rfl⟩ := hw.onto he
    exact ⟨(a, b), rfl⟩
  decode_iff := by
    rintro bs ⟨a, b⟩ rest
    constructor
    · intro h
      obtain ⟨⟨a', bs'⟩, ha, hrest⟩ := bind_eq_ok_iff.mp h
      obtain ⟨⟨b', bs''⟩, hb, hpair⟩ := bind_eq_ok_iff.mp hrest
      simp only [Except.ok.injEq, Prod.mk.injEq] at hpair
      obtain ⟨⟨rfl, rfl⟩, rfl⟩ := hpair
      obtain ⟨hsound, rfl⟩ := (hv.decode_iff ..).mp ha
      obtain ⟨hsound', rfl⟩ := (hw.decode_iff ..).mp hb
      exact ⟨⟨hsound, hsound'⟩, (append_assoc ..).symm⟩
    · rintro ⟨⟨hsound, hsound'⟩, rfl⟩
      have hcarries : (v.pair w).Carries (a, b) :=
        .pair (fun rest => (hv.decode_iff ..).mpr ⟨hsound, rfl⟩)
          (fun rest => (hw.decode_iff ..).mpr ⟨hsound', rfl⟩)
      exact hcarries rest

theorem map (hv : v.Exact f) {u : α → β} {r : β → α} (hur : ∀ b, u (r b) = b)
    (hru : ∀ a, r (u a) = a) : (v.map u r).Exact (f.of r) where
  encode_eq b := hv.encode_eq (r b)
  onto := by
    intro d hd
    obtain ⟨a, rfl⟩ := hv.onto hd
    exact ⟨u a, congrArg f.view (hru a)⟩
  decode_iff bs b rest := by
    constructor
    · intro h
      obtain ⟨⟨a, rest'⟩, ha, hb⟩ := bind_eq_ok_iff.mp h
      simp only [Except.ok.injEq, Prod.mk.injEq] at hb
      obtain ⟨rfl, rfl⟩ := hb
      obtain ⟨hsound, rfl⟩ := (hv.decode_iff ..).mp ha
      simp only [Form.of, Wire.map, hru]
      exact ⟨hsound, trivial⟩
    · rintro ⟨hsound, rfl⟩
      have hcarries : v.Carries (r b) := fun rest => (hv.decode_iff ..).mpr ⟨hsound, rfl⟩
      exact hcarries.map (hur b) rest

/-- A message is read as a value if the value is sound and its encoding comes first. -/
theorem read_iff (hv : v.Exact f) (bs : Bytes) (a : α) :
    v.read bs = .ok a ↔ f.Sound (f.view a) ∧ v.encode a <+: bs := by
  have hread : v.read bs = .ok a ↔ ∃ rest, v.decode bs = .ok (a, rest) := by
    cases h : v.decode bs with
    | error e => simp [read, h, Functor.map, Except.map]
    | ok p => simp [read, h, Functor.map, Except.map, Prod.ext_iff]
  rw [hread]
  constructor
  · rintro ⟨rest, h⟩
    obtain ⟨hsound, rfl⟩ := (hv.decode_iff ..).mp h
    exact ⟨hsound, prefix_append ..⟩
  · rintro ⟨hsound, rest, rfl⟩
    exact ⟨rest, (hv.decode_iff ..).mpr ⟨hsound, rfl⟩⟩

/-- A message is read as data if the data are sound and come first as they are written.  The
data may be any, also those of no value. -/
theorem read_view_iff (hv : v.Exact f) (bs : Bytes) (d : f.Data) :
    f.view <$> v.read bs = .ok d ↔ f.Sound d ∧ f.write d <+: bs := by
  have hmap : f.view <$> v.read bs = .ok d ↔ ∃ a, v.read bs = .ok a ∧ f.view a = d := by
    cases h : v.read bs with
    | error e => simp [Functor.map, Except.map]
    | ok a => simp [Functor.map, Except.map]
  rw [hmap]
  constructor
  · rintro ⟨a, ha, rfl⟩
    rw [← hv.encode_eq]
    exact (hv.read_iff bs a).mp ha
  · rintro ⟨hsound, hprefix⟩
    obtain ⟨a, rfl⟩ := hv.onto hsound
    exact ⟨a, (hv.read_iff bs a).mpr ⟨hsound, by rwa [hv.encode_eq]⟩, rfl⟩

/-- What a list is read from, item by item.  The items already read stand before it. -/
theorem decodeMany_iff (hv : v.Exact f) (n : Nat) (done : List α) (bs : Bytes) (xs : List α)
    (rest : Bytes) :
    v.decodeMany n done bs = .ok (xs, rest) ↔ ∃ ys, ys.length = n ∧ xs = done.reverse ++ ys ∧
      (∀ y ∈ ys, f.Sound (f.view y)) ∧ bs = ys.flatMap v.encode ++ rest := by
  constructor
  · intro h
    induction n generalizing done bs with
    | zero =>
      simp only [decodeMany, Except.ok.injEq, Prod.mk.injEq] at h
      obtain ⟨rfl, rfl⟩ := h
      exact ⟨[], rfl, by simp, by simp, rfl⟩
    | succ n ih =>
      obtain ⟨⟨y, bs'⟩, hy, hys⟩ := bind_eq_ok_iff.mp h
      obtain ⟨hsound, rfl⟩ := (hv.decode_iff ..).mp hy
      obtain ⟨ys, hlength, rfl, hsounds, rfl⟩ := ih (y :: done) bs' hys
      refine ⟨y :: ys, by simp [hlength], by simp, ?_, by simp⟩
      simpa using ⟨hsound, hsounds⟩
  · rintro ⟨ys, rfl, rfl, hsounds, rfl⟩
    have hcarries : ∀ y ∈ ys, v.Carries y := fun y hy rest =>
      (hv.decode_iff ..).mpr ⟨hsounds y hy, rfl⟩
    exact decodeMany_encode hcarries done rest

theorem list (hv : v.Exact f) : v.list.Exact f.list where
  encode_eq xs := by
    have hitems : (fun a => f.write (f.view a)) = v.encode := (funext hv.encode_eq).symm
    simp only [Wire.list, Form.list, length_map, flatMap_map, hitems]
  onto := by
    rintro ds ⟨-, hds⟩
    induction ds with
    | nil => exact ⟨[], rfl⟩
    | cons d ds ih =>
      obtain ⟨a, rfl⟩ := hv.onto (hds d mem_cons_self)
      obtain ⟨xs, rfl⟩ := ih fun e he => hds e (mem_cons_of_mem _ he)
      exact ⟨a :: xs, rfl⟩
  decode_iff bs xs rest := by
    rw [Form.sound_list_iff]
    constructor
    · intro h
      obtain ⟨⟨n, bs'⟩, hn, hxs⟩ := bind_eq_ok_iff.mp h
      obtain ⟨hlt, rfl⟩ := (decode_count_iff ..).mp hn
      obtain ⟨ys, rfl, rfl, hsounds, rfl⟩ := (hv.decodeMany_iff ..).mp hxs
      exact ⟨⟨hlt, hsounds⟩, (append_assoc ..).symm⟩
    · rintro ⟨⟨hlt, hsounds⟩, rfl⟩
      exact Carries.list (fun x hx rest => (hv.decode_iff ..).mpr ⟨hsounds x hx, rfl⟩) hlt rest

end Wire.Exact

theorem Bytes.toNatLE_lt (bs : Bytes) : toNatLE bs < 256 ^ bs.length := by
  rw [← Bytes.ofNatLE_toNatLE bs, Bytes.toNatLE_ofNatLE, Bytes.length_ofNatLE, Nat.pow_eq]
  exact Nat.mod_lt _ (by positivity)

/-- Sixteen bytes are those of the block read from them. -/
theorem Block.toBytes_ofBytes {bs : Bytes} (h : bs.length = 16) : (ofBytes bs).toBytes = bs := by
  have hhalf : ∀ half : Bytes, half.length = 8 →
      Bytes.ofNatLE 8 (UInt64.ofNat (Bytes.toNatLE half)).toNat = half := by
    intro half hlength
    have hlt := Bytes.toNatLE_lt half
    rw [hlength] at hlt
    rw [UInt64.toNat_ofNat_of_lt' (by simpa using hlt), ← hlength, Bytes.ofNatLE_toNatLE]
  have hlow : (bs.take 8).length = 8 := by simp [h]
  have hhigh : (bs.drop 8).length = 8 := by simp [h]
  rw [ofBytes, toBytes, take_of_length_le hhigh.le, hhalf _ hlow, hhalf _ hhigh,
    take_append_drop]

theorem Wire.exact_block : Wire.block.Exact .block where
  encode_eq _ := rfl
  onto {d} _ := ⟨d, rfl⟩
  decode_iff bs b rest := by
    constructor
    · intro h
      obtain ⟨⟨front, rest'⟩, hfront, hb⟩ := bind_eq_ok_iff.mp h
      obtain ⟨hlength, rfl⟩ := (decode_bytes_iff ..).mp hfront
      simp only [Except.ok.injEq, Prod.mk.injEq] at hb
      obtain ⟨rfl, rfl⟩ := hb
      exact ⟨trivial, congrArg (· ++ rest') (Block.toBytes_ofBytes hlength).symm⟩
    · rintro ⟨-, rfl⟩
      exact carries_block b rest

namespace Square

/-- Bytes that fill whole blocks are those of the blocks they are cut into. -/
theorem flatMap_blocksOf (n : Nat) {bs : Bytes} (h : bs.length = 16 * n) :
    (blocksOf bs).length = n ∧ (blocksOf bs).flatMap Block.toBytes = bs := by
  induction n generalizing bs with
  | zero =>
    obtain rfl := length_eq_zero_iff.mp h
    simp [blocksOf]
  | succ n ih =>
    have hne : bs ≠ [] := by
      rintro rfl
      simp at h
    have hfront : (bs.take 16).length = 16 := by simp [h]
    have hrest : (bs.drop 16).length = 16 * n := by simp [h]; omega
    have hblock : Block.ofBytes bs = Block.ofBytes (bs.take 16) := by
      rw [Block.ofBytes, Block.ofBytes, take_take, drop_take, take_take]
      rfl
    obtain ⟨hlength, hbytes⟩ := ih hrest
    rw [blocksOf, if_neg hne, length_cons, hlength, flatMap_cons, hbytes, hblock,
      Block.toBytes_ofBytes hfront, take_append_drop]
    exact ⟨rfl, rfl⟩

/-- 2048 bytes are those of the square read from them. -/
theorem toBytes_ofBytes {bs : Bytes} (h : bs.length = 2048) : (ofBytes bs).toBytes = bs := by
  obtain ⟨hlength, hbytes⟩ := flatMap_blocksOf 128 h
  have hrows : (ofBytes bs).rows.toList = blocksOf bs := by
    apply ext_getElem
    · simp [hlength]
    · intro i _ hi
      simp [ofBytes, ofRows, hi]
  rw [toBytes, hrows, hbytes]

theorem sound (s : Square) : Form.square.Sound (Form.square.view s) :=
  length_toBytes s

theorem exact_wire : wire.Exact .square where
  encode_eq s := by
    change Wire.count.encode 2048 ++ s.toBytes = Wire.count.encode s.toBytes.length ++ s.toBytes
    rw [length_toBytes]
  onto {bs} h := by
    have hsquare : ∃ s, toBytes s = bs := ⟨ofBytes bs, toBytes_ofBytes h⟩
    exact hsquare
  decode_iff bs s rest := by
    constructor
    · intro h
      obtain ⟨⟨n, bs'⟩, hn, hdata⟩ := bind_eq_ok_iff.mp h
      obtain ⟨⟨data, bs''⟩, hbytes, hs⟩ := bind_eq_ok_iff.mp hdata
      obtain ⟨-, rfl⟩ := (Wire.decode_count_iff ..).mp hn
      obtain ⟨rfl, rfl⟩ := (Wire.decode_bytes_iff ..).mp hbytes
      simp only at hs
      split at hs
      · next hlength =>
          simp only [Except.ok.injEq, Prod.mk.injEq] at hs
          obtain ⟨rfl, rfl⟩ := hs
          refine ⟨sound _, ?_⟩
          simp only [wire, toBytes_ofBytes hlength, hlength, append_assoc]
      · cases hs
    · rintro ⟨-, rfl⟩
      exact carries_wire s rest

end Square

namespace BitMatrix

theorem exact_wire : wire.Exact (Form.square.list.of squares) :=
  Square.exact_wire.list.map (fun _ => rfl) (fun _ => rfl)

theorem length_encode_wire (m : BitMatrix) :
    (wire.encode m).length = 8 + m.squares.length * 2056 := by
  have hsquare : ∀ s, (Square.wire.encode s).length = 2056 := by
    intro s
    rw [Square.wire, length_append, Wire.length_encode_count, Square.length_toBytes]
  rw [wire, Wire.map, Wire.list, length_append, Wire.length_encode_count]
  simp [length_flatMap, hsquare]

end BitMatrix

namespace RingName

/-- The number of elements of a ring. -/
def order : RingName → Nat
  | mersenne61 => 2 ^ 61 - 1
  | mersenne127 => 2 ^ 127 - 1
  | gf128 => 2 ^ 128
  | gf2 => 2
  | word64 => 2 ^ 64
  | word128 => 2 ^ 128

/-- The integers that represent elements are those below the order. -/
theorem ofNat?_isSome_iff (r : RingName) (x : Nat) :
    (ofNat? x : Option r.Carrier).isSome ↔ x < r.order := by
  have hresidue : ∀ (m : Nat) [Modulus m],
      (Residue.ofNat? x : Option (Residue m)).isSome ↔ x < m := by
    intro m _
    rw [Residue.ofNat?]
    split <;> simp_all
  cases r with
  | mersenne61 | mersenne127 | word64 | word128 => exact hresidue _
  | gf128 | gf2 => exact Option.isSome_ite

theorem toNat_of_ofNat? (r : RingName) {x : Nat} {a : r.Carrier} (h : ofNat? x = some a) :
    toNat a = x := by
  cases r with
  | mersenne61 | mersenne127 | word64 | word128 =>
    simp only [ofNat?, Residue.ofNat?] at h
    split at h
    · obtain rfl := Option.some.inj h
      rfl
    · cases h
  | gf128 =>
    simp only [ofNat?] at h
    split at h
    · next hlt =>
        obtain rfl := Option.some.inj h
        exact Block.toNat_ofNat hlt
    · cases h
  | gf2 =>
    simp only [ofNat?] at h
    split at h
    · next hlt =>
        obtain rfl := Option.some.inj h
        interval_cases x <;> rfl
    · cases h

theorem toNat_lt_order {r : RingName} (a : r.Carrier) : toNat a < r.order := by
  rw [← ofNat?_isSome_iff, LawfulShareRing.ofNat?_toNat]
  rfl

end RingName

/-- An integer below the order of its ring. -/
def Form.element (r : RingName) : Form r.Carrier where
  Data := Nat
  view := toNat
  write := Bytes.ofNatLE (bytes r.Carrier)
  Sound x := x < r.order

theorem Wire.exact_element (r : RingName) : (Wire.element r.Carrier).Exact (.element r) where
  encode_eq _ := rfl
  onto {x} h := by
    obtain ⟨a, ha⟩ := Option.isSome_iff_exists.mp ((r.ofNat?_isSome_iff x).mpr h)
    exact ⟨a, r.toNat_of_ofNat? ha⟩
  decode_iff bs a rest := by
    constructor
    · intro h
      obtain ⟨⟨front, rest'⟩, hfront, ha⟩ := bind_eq_ok_iff.mp h
      obtain ⟨hlength, rfl⟩ := (decode_bytes_iff ..).mp hfront
      simp only at ha
      split at ha
      · next a' ha' =>
          simp only [Except.ok.injEq, Prod.mk.injEq] at ha
          obtain ⟨rfl, rfl⟩ := ha
          refine ⟨RingName.toNat_lt_order a', ?_⟩
          have hwritten : ShareRing.encode a' = front := by
            rw [ShareRing.encode, r.toNat_of_ofNat? ha', ← hlength, Bytes.ofNatLE_toNatLE]
          rw [← hwritten]
          rfl
      · cases ha
    · rintro ⟨-, rfl⟩
      exact carries_element a rest

/-- A rectangle as the list of the integers of its rows, one for each bit. -/
def Form.rectangle (u v : RingName) : Form (Rectangle u.Carrier v.Carrier) where
  Data := List Nat
  view r := r.rows.toList.map toNat
  write := (Form.element v).list.write
  Sound xs := xs.length = bits u.Carrier ∧ ∀ x ∈ xs, x < v.order

namespace Rectangle

theorem ofRows_eq_ok_iff {α β : Type} [ShareRing α] [ShareRing β] (rows : List β)
    (r : Rectangle α β) : ofRows rows = .ok r ↔ rows = r.rows.toList := by
  constructor
  · intro h
    simp only [ofRows] at h
    split at h
    · obtain rfl := Except.ok.inj h
      rfl
    · cases h
  · rintro rfl
    have hsize : r.rows.toList.toArray.size = bits α := by simp
    rw [ofRows, dif_pos hsize]
    rfl

theorem exact_wire (u v : RingName) : (wire u.Carrier v.Carrier).Exact (.rectangle u v) where
  encode_eq r := (Wire.exact_element v).list.encode_eq r.rows.toList
  onto := by
    rintro xs ⟨hlength, hxs⟩
    have hsound : (Form.element v).list.Sound xs := ⟨hlength ▸ u.bits_lt, hxs⟩
    obtain ⟨rows, rfl⟩ := (Wire.exact_element v).list.onto hsound
    have hsize : rows.toArray.size = bits u.Carrier := (length_map _).symm.trans hlength
    exact ⟨⟨rows.toArray, hsize⟩, rfl⟩
  decode_iff bs r rest := by
    constructor
    · intro h
      obtain ⟨⟨rows, rest'⟩, hrows, hr⟩ := bind_eq_ok_iff.mp h
      obtain ⟨⟨-, hsounds⟩, rfl⟩ := ((Wire.exact_element v).list.decode_iff ..).mp hrows
      simp only at hr
      split at hr
      · next r' hr' =>
          simp only [Except.ok.injEq, Prod.mk.injEq] at hr
          obtain ⟨rfl, rfl⟩ := hr
          obtain rfl := (ofRows_eq_ok_iff ..).mp hr'
          exact ⟨⟨by simp [Form.rectangle], hsounds⟩, rfl⟩
      · cases hr
    · rintro ⟨⟨-, hsounds⟩, rfl⟩
      have hrows := ((Wire.exact_element v).list.decode_iff _ r.rows.toList rest).mpr
        ⟨⟨by simpa [Form.list] using u.bits_lt, hsounds⟩, rfl⟩
      refine bind_eq_ok_iff.mpr ⟨_, hrows, ?_⟩
      simp only [(ofRows_eq_ok_iff r.rows.toList r).mpr rfl]

end Rectangle

theorem Row.exact_wire (r : RingName) :
    (wire r.Carrier).Exact ((Form.element r).list.of values) :=
  (Wire.exact_element r).list.map (fun _ => rfl) (fun _ => rfl)

namespace Form

variable (r s : RingName)

/-- The integers of a value and of its tag. -/
def share : Form (Share r.Carrier s.Carrier) :=
  ((element r).pair (element s)).of fun x => (x.value, x.tag)

/-- An item as the integers of its parts. -/
def item : (k : ItemKind) → Form (ItemType.ItemOf r.Carrier s.Carrier k)
  | .share => share r s
  | .triple => ((share r s).pair ((share r s).pair (share r s))).of fun x => (x.a, x.b, x.c)
  | .plainTriple => ((element r).pair ((element r).pair (element r))).of fun x => (x.a, x.b, x.c)
  | .inputMask => ((share r s).pair (element r)).of fun x => (x.share, x.clear)
  | .pair => (share r s).pair (share r s)

end Form

theorem Share.exact_wire (r s : RingName) :
    (Stored.wire : Wire (Share r.Carrier s.Carrier)).Exact (.share r s) :=
  ((Wire.exact_element r).pair (Wire.exact_element s)).map (fun _ => rfl) (fun _ => rfl)

theorem ItemType.exact_wire (r s : RingName) (k : ItemKind) :
    (Stored.wire : Wire (ItemOf r.Carrier s.Carrier k)).Exact (.item r s k) := by
  have hshare := Share.exact_wire r s
  have helement := Wire.exact_element r
  cases k with
  | share => exact hshare
  | triple => exact (hshare.pair (hshare.pair hshare)).map (fun _ => rfl) (fun _ => rfl)
  | plainTriple => exact (helement.pair (helement.pair helement)).map (fun _ => rfl) (fun _ => rfl)
  | inputMask => exact (hshare.pair helement).map (fun _ => rfl) (fun _ => rfl)
  | pair => exact hshare.pair hshare

/-- The kinds of messages. -/
inductive MessageKind where
  | element (r : RingName)
  | block
  | square
  | matrix
  | rectangles (u v : RingName)
  | rows (r : RingName)
  | item (r s : RingName) (k : ItemKind)

namespace MessageKind

/-- What messages of a kind carry. -/
@[reducible]
def Value : MessageKind → Type
  | element r => r.Carrier
  | block => Block
  | square => Square
  | matrix => BitMatrix
  | rectangles u v => List (Rectangle u.Carrier v.Carrier)
  | rows r => List (Row r.Carrier)
  | item r s k => ItemType.ItemOf r.Carrier s.Carrier k

/-- How messages of a kind are written and read. -/
def wire : (k : MessageKind) → Wire k.Value
  | element r => .element r.Carrier
  | block => .block
  | square => Square.wire
  | matrix => BitMatrix.wire
  | rectangles u v => (Rectangle.wire u.Carrier v.Carrier).list
  | rows r => (Row.wire r.Carrier).list
  | item _ _ _ => Stored.wire

/-- The plain data of messages of a kind. -/
def form : (k : MessageKind) → Form k.Value
  | element r => .element r
  | block => .block
  | square => .square
  | matrix => Form.square.list.of BitMatrix.squares
  | rectangles u v => (Form.rectangle u v).list
  | rows r => ((Form.element r).list.of Row.values).list
  | item r s k => .item r s k

theorem exact_wire (k : MessageKind) : k.wire.Exact k.form := by
  cases k with
  | element r => exact Wire.exact_element r
  | block => exact Wire.exact_block
  | square => exact Square.exact_wire
  | matrix => exact BitMatrix.exact_wire
  | rectangles u v => exact (Rectangle.exact_wire u v).list
  | rows r => exact (Row.exact_wire r).list
  | item r s k => exact ItemType.exact_wire r s k

/-- Every list of a message has a length that fits in a machine word. -/
def Counted : (k : MessageKind) → k.Value → Prop
  | matrix, m => m.squares.length < 2 ^ 64
  | rectangles _ _, rs => rs.length < 2 ^ 64
  | rows _, rs => rs.length < 2 ^ 64 ∧ ∀ r ∈ rs, r.values.length < 2 ^ 64
  | element _, _ | block, _ | square, _ | item _ _ _, _ => True

/-- The values of a type are sound as far as their lists can be counted. -/
theorem sound_view_iff (k : MessageKind) (x : k.Value) :
    k.form.Sound (k.form.view x) ↔ k.Counted x := by
  have helement : ∀ (r : RingName) (a : r.Carrier),
      (Form.element r).Sound ((Form.element r).view a) :=
    fun r a => RingName.toNat_lt_order a
  have hshare : ∀ (r s : RingName) (a : Share r.Carrier s.Carrier),
      (Form.share r s).Sound ((Form.share r s).view a) := fun r s a => ⟨helement r _, helement s _⟩
  cases k with
  | element r => exact iff_true_intro (helement r x)
  | block => exact iff_true_intro trivial
  | square => exact iff_true_intro (Square.sound x)
  | matrix => exact Form.sound_list_iff.trans (and_iff_left fun s _ => Square.sound s)
  | rectangles u v =>
    refine Form.sound_list_iff.trans (and_iff_left fun r _ => ⟨by simp [Form.rectangle], ?_⟩)
    intro n hn
    obtain ⟨a, -, rfl⟩ := mem_map.mp hn
    exact helement v a
  | rows r =>
    refine Form.sound_list_iff.trans (and_congr_right fun _ => forall₂_congr fun row _ => ?_)
    exact Form.sound_list_iff.trans (and_iff_left fun a _ => helement r a)
  | item r s k =>
    apply iff_true_intro
    cases k with
    | share => exact hshare r s x
    | triple => exact ⟨hshare r s _, hshare r s _, hshare r s _⟩
    | plainTriple => exact ⟨helement r _, helement r _, helement r _⟩
    | inputMask => exact ⟨hshare r s _, helement r _⟩
    | pair => exact ⟨hshare r s _, hshare r s _⟩

/-- **A message is accepted exactly if it starts with the encoding of a sound value.**  This
holds of any plain data, sound or not, and of the values themselves with their own encoding,
which are sound as far as their lists can be counted; such a value comes back whatever follows
its encoding. -/
theorem reads_exactly (k : MessageKind) (bs : Bytes) :
    (∀ d, k.form.view <$> k.wire.read bs = .ok d ↔ k.form.Sound d ∧ k.form.write d <+: bs) ∧
    (∀ x, k.wire.read bs = .ok x ↔ k.Counted x ∧ k.wire.encode x <+: bs) ∧
    ∀ x, k.wire.read (k.wire.encode x ++ bs) = .ok x ↔ k.Counted x := by
  have hexact := k.exact_wire
  have hread : ∀ bs x, k.wire.read bs = .ok x ↔ k.Counted x ∧ k.wire.encode x <+: bs := by
    intro bs x
    rw [hexact.read_iff, k.sound_view_iff]
  refine ⟨hexact.read_view_iff bs, hread bs, fun x => ?_⟩
  rw [hread]
  exact and_iff_left (prefix_append ..)

end MessageKind

end Beaver
