import Beaver.BitMatrix
import Beaver.Proofs.BlockBits

/-!
# What is written can be read back

A wire carries a value if the value can be read back from the front of every message
that starts with its encoding.  The wires of records and lists carry what their parts
carry; numbers have to fit their width, and lists must have fewer than `2 ^ 64` items.
-/

namespace Beaver

open List

namespace Wire

variable {α β : Type}

/-- The value can be read back, and the rest of the message is left. -/
def Carries (w : Wire α) (a : α) : Prop :=
  ∀ rest, w.decode (w.encode a ++ rest) = .ok (a, rest)

variable {w : Wire α} {xs : List α}

theorem Carries.read_encode {a : α} (h : w.Carries a) : w.read (w.encode a) = .ok a := by
  have hdecode := h []
  rw [append_nil] at hdecode
  rw [read, hdecode]
  rfl

theorem carries_bytes {n : Nat} {bs : Bytes} (h : bs.length = n) : (bytes n).Carries bs := by
  intro rest
  have htake : (bs ++ rest).take n = bs := take_left' h
  have hdrop : (bs ++ rest).drop n = rest := drop_left' h
  simp [bytes, htake, hdrop, h]

theorem carries_number {width x : Nat} (h : x < 256 ^ width) : (number width).Carries x := by
  intro rest
  have hbytes := carries_bytes (Bytes.length_ofNatLE width x) rest
  simp only [number, bytes, id_eq] at hbytes ⊢
  rw [hbytes]
  change Except.ok (Bytes.toNatLE (Bytes.ofNatLE width x), rest) = _
  rw [Bytes.toNatLE_ofNatLE, Nat.pow_eq, Nat.mod_eq_of_lt h]

theorem carries_count {n : Nat} (h : n < 2 ^ 64) : count.Carries n :=
  carries_number h

theorem Carries.pair {v : Wire α} {w : Wire β} {a : α} {b : β} (ha : v.Carries a)
    (hb : w.Carries b) : (v.pair w).Carries (a, b) := by
  intro rest
  simp only [Wire.pair, append_assoc]
  rw [ha]
  change (w.decode (w.encode b ++ rest) >>= fun q => .ok ((a, q.1), q.2)) = _
  rw [hb]
  rfl

theorem Carries.map {f : α → β} {g : β → α} {b : β} (h : w.Carries (g b)) (hfg : f (g b) = b) :
    (w.map f g).Carries b := by
  intro rest
  simp only [Wire.map]
  rw [h]
  change Except.ok (f (g b), rest) = _
  rw [hfg]

theorem decodeMany_encode (h : ∀ x ∈ xs, w.Carries x) (done : List α) (rest : Bytes) :
    w.decodeMany xs.length done (xs.flatMap w.encode ++ rest) = .ok (done.reverse ++ xs, rest) := by
  induction xs generalizing done with
  | nil => simp [decodeMany]
  | cons x xs ih =>
    have hx := h x mem_cons_self
    have hxs := ih (fun y hy => h y (mem_cons_of_mem x hy)) (x :: done)
    rw [length_cons, decodeMany, flatMap_cons, append_assoc, hx]
    refine hxs.trans ?_
    simp

theorem Carries.list (h : ∀ x ∈ xs, w.Carries x) (hlength : xs.length < 2 ^ 64) :
    w.list.Carries xs := by
  intro rest
  simp only [Wire.list, append_assoc]
  rw [carries_count hlength]
  exact decodeMany_encode h [] rest

theorem carries_block (b : Block) : block.Carries b := by
  intro rest
  have hbytes := carries_bytes b.length_toBytes rest
  simp only [block, bytes, id_eq] at hbytes ⊢
  rw [hbytes]
  change Except.ok (Block.ofBytes b.toBytes, rest) = _
  rw [Block.ofBytes_toBytes]

end Wire

namespace Square

theorem length_flatMap_toBytes (rows : List Block) :
    (rows.flatMap Block.toBytes).length = 16 * rows.length := by
  induction rows with
  | nil => rfl
  | cons row rows ih =>
    rw [flatMap_cons, length_append, ih, Block.length_toBytes, length_cons]
    omega

theorem blocksOf_flatMap (rows : List Block) : blocksOf (rows.flatMap Block.toBytes) = rows := by
  induction rows with
  | nil => simp [blocksOf]
  | cons row rows ih =>
    have hne : row.toBytes ++ rows.flatMap Block.toBytes ≠ [] := by
      intro hnil
      have hlength := congrArg length (append_eq_nil_iff.mp hnil).1
      simp at hlength
    rw [flatMap_cons, blocksOf, if_neg hne, Block.ofBytes_toBytes_append,
      drop_left' row.length_toBytes, ih]

theorem length_toBytes (s : Square) : s.toBytes.length = 2048 := by
  rw [toBytes, length_flatMap_toBytes, Vector.length_toList]

theorem ofBytes_toBytes (s : Square) : ofBytes s.toBytes = s := by
  have hrows : Vector.ofFn (fun i : Fin 128 => s.rows.toList.toArray[i.val]?.getD .zero) = s.rows := by
    apply Vector.ext
    intro i hi
    simp
  rw [ofBytes, toBytes, blocksOf_flatMap]
  exact congrArg Square.mk hrows

theorem carries_wire (s : Square) : wire.Carries s := by
  intro rest
  have hbytes : (Wire.bytes 2048).decode (s.toBytes ++ rest) = .ok (s.toBytes, rest) :=
    Wire.carries_bytes s.length_toBytes rest
  simp only [wire, append_assoc]
  rw [Wire.carries_count (by decide)]
  change ((Wire.bytes 2048).decode (s.toBytes ++ rest) >>= fun q =>
    if 2048 = 2048 then .ok (ofBytes q.1, q.2) else .error (.square 2048)) = _
  rw [hbytes]
  change Except.ok (ofBytes s.toBytes, rest) = _
  rw [ofBytes_toBytes]

end Square

/-- A matrix with fewer than `2 ^ 64` squares can be sent. -/
theorem BitMatrix.carries_wire {m : BitMatrix} (h : m.squares.length < 2 ^ 64) :
    BitMatrix.wire.Carries m :=
  .map (.list (fun s _ => s.carries_wire) h) rfl

end Beaver
