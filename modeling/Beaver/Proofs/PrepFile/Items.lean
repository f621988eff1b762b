import Mathlib
import Beaver.Proofs.Batching
import Beaver.Proofs.WireForms

/-!
# Packed items

An item of a file is packed in a fixed number of bytes, and it is unpacked from these bytes
and no others.  A record is cut into its parts at fixed places, so this follows from the ring
elements up.  Items packed one after the other are found again by cutting the bytes into
batches of their size (`unpack_batches`).
-/

namespace Beaver

open List
open ShareRing

/-- Items are unpacked from the bytes that they are packed in. -/
class LawfulStored (δ : Type) [Stored δ] : Prop where
  size_pos : 0 < Stored.size δ
  length_pack (x : δ) : (Stored.pack x).length = Stored.size δ
  unpackExact_iff (bs : Bytes) (x : δ) : Stored.unpackExact bs = .ok x ↔ bs = Stored.pack x

/-- The number of bytes is right where they are those of an item. -/
theorem LawfulStored.unpack_iff {δ : Type} [Stored δ] [LawfulStored δ] (bs : Bytes) (x : δ) :
    Stored.unpack bs = .ok x ↔ bs = Stored.pack x := by
  constructor
  · intro h
    obtain ⟨_, -, hexact⟩ := bind_eq_ok_iff.mp h
    exact (unpackExact_iff bs x).mp hexact
  · rintro rfl
    refine bind_eq_ok_iff.mpr ⟨(), ?_, (unpackExact_iff _ x).mpr rfl⟩
    rw [length_pack, checkLength, if_pos rfl]

theorem unpackElement_eq_ok_iff (r : RingName) (bs : Bytes) (a : r.Carrier) :
    unpackElement r.Carrier bs = .ok a ↔ bs = encode a := by
  have hdecode : decode? bs = some a ↔ bs = encode a := by
    constructor
    · intro h
      rw [decode?] at h
      split at h
      · next hlength => rw [encode, r.toNat_of_ofNat? h, ← hlength, Bytes.ofNatLE_toNatLE]
      · cases h
    · rintro rfl
      rw [decode?, encode, if_pos (Bytes.length_ofNatLE ..), Bytes.toNatLE_ofNatLE, Nat.pow_eq,
        Nat.mod_eq_of_lt (LawfulShareRing.toNat_lt a), LawfulShareRing.ofNat?_toNat]
  rw [← hdecode, unpackElement]
  cases (decode? bs : Option r.Carrier) <;> simp

/-- Two parts are found by cutting after the first. -/
theorem take_drop_eq_iff {bs u v : Bytes} {n : Nat} (hu : u.length = n) :
    bs.take n = u ∧ bs.drop n = v ↔ bs = u ++ v := by
  constructor
  · rintro ⟨rfl, rfl⟩
    exact (take_append_drop n bs).symm
  · rintro rfl
    exact ⟨take_left' hu, drop_left' hu⟩

theorem three_parts_iff {bs u v w : Bytes} {n : Nat} (hu : u.length = n) (hv : v.length = n) :
    bs.take n = u ∧ (bs.drop n).take n = v ∧ bs.drop (2 * n) = w ↔ bs = u ++ v ++ w := by
  rw [append_assoc, ← take_drop_eq_iff hu, ← take_drop_eq_iff hv, drop_drop, two_mul]

section Instances

variable (r s : RingName)

instance lawfulStoredShare : LawfulStored (Share r.Carrier s.Carrier) where
  size_pos := Nat.add_pos_left r.bytes_pos _
  length_pack x := by simp [Stored.pack, Stored.size, encode]
  unpackExact_iff bs x := by
    simp only [Stored.unpackExact, bind_eq_ok_iff, unpackElement_eq_ok_iff, Except.ok.injEq]
    refine Iff.trans ?_ (take_drop_eq_iff (Bytes.length_ofNatLE ..))
    constructor
    · rintro ⟨value, hvalue, tag, htag, rfl⟩
      exact ⟨hvalue, htag⟩
    · rintro ⟨hvalue, htag⟩
      exact ⟨_, hvalue, _, htag, rfl⟩

instance : LawfulStored (Triple r.Carrier s.Carrier) where
  size_pos := Nat.mul_pos (by omega) (LawfulStored.size_pos (δ := Share r.Carrier s.Carrier))
  length_pack x := by
    change (Stored.pack x.a ++ Stored.pack x.b ++ Stored.pack x.c).length
      = 3 * Stored.size (Share r.Carrier s.Carrier)
    simp only [length_append, LawfulStored.length_pack]
    omega
  unpackExact_iff bs x := by
    simp only [Stored.unpackExact, bind_eq_ok_iff, LawfulStored.unpack_iff, Except.ok.injEq]
    refine Iff.trans ?_
      (three_parts_iff (LawfulStored.length_pack x.a) (LawfulStored.length_pack x.b))
    constructor
    · rintro ⟨a, ha, b, hb, c, hc, rfl⟩
      exact ⟨ha, hb, hc⟩
    · rintro ⟨ha, hb, hc⟩
      exact ⟨_, ha, _, hb, _, hc, rfl⟩

instance : LawfulStored (PlainTriple r.Carrier) where
  size_pos := Nat.mul_pos (by omega) r.bytes_pos
  length_pack x := by
    simp only [Stored.pack, Stored.size, encode, length_append, Bytes.length_ofNatLE]
    omega
  unpackExact_iff bs x := by
    simp only [Stored.unpackExact, bind_eq_ok_iff, unpackElement_eq_ok_iff, Except.ok.injEq]
    refine Iff.trans ?_ (three_parts_iff (Bytes.length_ofNatLE ..) (Bytes.length_ofNatLE ..))
    constructor
    · rintro ⟨a, ha, b, hb, c, hc, rfl⟩
      exact ⟨ha, hb, hc⟩
    · rintro ⟨ha, hb, hc⟩
      exact ⟨_, ha, _, hb, _, hc, rfl⟩

instance : LawfulStored (InputMask r.Carrier s.Carrier) where
  size_pos := Nat.add_pos_right _ r.bytes_pos
  length_pack x := by
    change (Stored.pack x.share ++ encode x.clear).length
      = Stored.size (Share r.Carrier s.Carrier) + bytes r.Carrier
    rw [length_append, LawfulStored.length_pack, encode, Bytes.length_ofNatLE]
  unpackExact_iff bs x := by
    simp only [Stored.unpackExact, bind_eq_ok_iff, LawfulStored.unpack_iff, unpackElement_eq_ok_iff,
      Except.ok.injEq]
    refine Iff.trans ?_ (take_drop_eq_iff (LawfulStored.length_pack x.share))
    constructor
    · rintro ⟨share, hshare, clear, hclear, rfl⟩
      exact ⟨hshare, hclear⟩
    · rintro ⟨hshare, hclear⟩
      exact ⟨_, hshare, _, hclear, rfl⟩

instance : LawfulStored (Share r.Carrier s.Carrier × Share r.Carrier s.Carrier) where
  size_pos := Nat.mul_pos (by omega) (LawfulStored.size_pos (δ := Share r.Carrier s.Carrier))
  length_pack x := by
    change (Stored.pack x.1 ++ Stored.pack x.2).length = 2 * Stored.size (Share r.Carrier s.Carrier)
    simp only [length_append, LawfulStored.length_pack]
    omega
  unpackExact_iff bs x := by
    simp only [Stored.unpackExact, bind_eq_ok_iff, LawfulStored.unpack_iff, Except.ok.injEq]
    refine Iff.trans ?_ (take_drop_eq_iff (LawfulStored.length_pack x.1))
    constructor
    · rintro ⟨first, hfirst, second, hsecond, rfl⟩
      exact ⟨hfirst, hsecond⟩
    · rintro ⟨hfirst, hsecond⟩
      exact ⟨_, hfirst, _, hsecond, rfl⟩

instance : (k : ItemKind) → LawfulStored (ItemType.ItemOf r.Carrier s.Carrier k)
  | .share => (inferInstance : LawfulStored (Share r.Carrier s.Carrier))
  | .triple => (inferInstance : LawfulStored (Triple r.Carrier s.Carrier))
  | .plainTriple => (inferInstance : LawfulStored (PlainTriple r.Carrier))
  | .inputMask => (inferInstance : LawfulStored (InputMask r.Carrier s.Carrier))
  | .pair => (inferInstance : LawfulStored (Share r.Carrier s.Carrier × Share r.Carrier s.Carrier))

end Instances

section Lists

variable {δ : Type} [Stored δ] [LawfulStored δ]

theorem length_flatMap_pack (xs : List δ) :
    (xs.flatMap Stored.pack).length = xs.length * Stored.size δ := by
  simp [length_flatMap, LawfulStored.length_pack]

/-- The bytes of the first items, and those of the others. -/
theorem cut_flatMap_pack {n : Nat} {xs : List δ} (h : n ≤ xs.length) :
    (xs.flatMap Stored.pack).take (n * Stored.size δ) = (xs.take n).flatMap Stored.pack ∧
    (xs.flatMap Stored.pack).drop (n * Stored.size δ) = (xs.drop n).flatMap Stored.pack := by
  have hfront : ((xs.take n).flatMap Stored.pack).length = n * Stored.size δ := by
    rw [length_flatMap_pack, length_take_of_le h]
  rw [take_drop_eq_iff hfront, ← flatMap_append, take_append_drop]

/-- **Items packed one after the other are found again.** -/
theorem unpack_batches (xs : List δ) :
    (batches (Stored.size δ) (xs.flatMap Stored.pack)).mapM Stored.unpack = .ok xs := by
  induction xs with
  | nil =>
    rw [flatMap_nil, batches_nil]
    rfl
  | cons x xs ih =>
    have hpos := LawfulStored.size_pos (δ := δ)
    have hlength := LawfulStored.length_pack x
    have hne : Stored.pack x ++ xs.flatMap Stored.pack ≠ [] := by
      intro hnil
      have hzero := congrArg length (append_eq_nil_iff.mp hnil).1
      rw [hlength, length_nil] at hzero
      omega
    rw [flatMap_cons, batches_of_ne_nil hpos hne, take_left' hlength,
      drop_left' hlength, mapM_cons, ih]
    exact bind_eq_ok_iff.mpr ⟨x, (LawfulStored.unpack_iff ..).mpr rfl, rfl⟩

end Lists

end Beaver
