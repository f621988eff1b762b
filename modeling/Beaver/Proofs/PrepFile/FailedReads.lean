import Mathlib
import Beaver.Proofs.PrepFile.RoundTrip

/-!
# What a failed read leaves

A read of more items than are left fails in one of two ways.  If its size in bytes is not a
machine word, nothing is read, and the reader stands where it stood.  Otherwise everything that
is left is read before it turns out to be too little, and none of it comes back: from then on
the file has nothing but empty reads to give (`PrepFile.failed_read_leaves`).
-/

namespace Beaver

open ItemType (ItemOf)

namespace PrepReader

variable {d : Disk} {δ : Type} [Stored δ] [LawfulStored δ]

/-- **A reader that has nothing ahead** returns no items, however it is asked. -/
theorem readAll_of_nothing (ns : List Nat) {r : PrepReader} (h : r.Ahead d []) :
    (readAll (δ := δ) d ns r).1 =
      ns.map fun n => if n = 0 then .ok [] else .error (.exhausted r.path) := by
  -- no read changes the path, nor brings anything back
  have hstep : ∀ {r : PrepReader}, r.Ahead d [] → ∀ n, ∃ r', r.read (δ := δ) d n =
      (if n = 0 then .ok [] else .error (.exhausted r.path), r') ∧ r'.path = r.path ∧
        r'.Ahead d [] := by
    intro r h n
    by_cases hn : n = 0
    · subst hn
      have hnone : r.Ahead d (([] : List δ).flatMap Stored.pack ++ []) := h
      exact read_of_le hnone (Nat.le_refl 0) (by rw [Nat.zero_mul]; decide)
    · have hpos : 0 < n * Stored.size δ := Nat.mul_pos (by omega) LawfulStored.size_pos
      obtain ⟨r', hread, hpath, hlarge, hdrained⟩ := read_of_short h hpos
      refine ⟨r', by rw [hread, if_neg hn], hpath, ?_⟩
      rcases Nat.lt_or_ge (n * Stored.size δ) (2 ^ 64) with hfits | hover
      · exact hdrained hfits
      · rw [hlarge hover]
        exact h
  induction ns generalizing r with
  | nil => rfl
  | cons n ns ih =>
    obtain ⟨r', hread, hpath, hahead⟩ := hstep h n
    simp only [readAll, hread, List.map_cons, ih hahead, hpath]

/-- Fewer bytes than an item has do not make up for an item that is missing. -/
theorem length_lt_of_lt {xs : List δ} {rest : Bytes} (hrest : rest.length < Stored.size δ) {n : Nat}
    (hn : xs.length < n) : (xs.flatMap Stored.pack ++ rest).length < n * Stored.size δ := by
  have hle : (xs.length + 1) * Stored.size δ ≤ n * Stored.size δ := Nat.mul_le_mul_right _ hn
  rw [List.length_append, length_flatMap_pack]
  rw [Nat.succ_mul] at hle
  omega

/-- **A read of too many items**, with part of another one behind those that are left: what is
read afterwards. -/
theorem read_too_many {r : PrepReader} {xs : List δ} {rest : Bytes}
    (h : r.Ahead d (xs.flatMap Stored.pack ++ rest)) (hrest : rest.length < Stored.size δ)
    (hsize : xs.length * Stored.size δ < 2 ^ 64) {n : Nat} (hn : xs.length < n) :
    ∃ r', r.read (δ := δ) d n = (.error (.exhausted r.path), r') ∧
      (2 ^ 64 ≤ n * Stored.size δ → r' = r ∧ ∀ ns : List Nat, ns.sum ≤ xs.length →
        (readAll d ns r').1 = (ns.splitLengths xs).map .ok) ∧
      (n * Stored.size δ < 2 ^ 64 → ∀ ns : List Nat, (readAll (δ := δ) d ns r').1 =
        ns.map fun m => if m = 0 then .ok [] else .error (.exhausted r.path)) := by
  obtain ⟨r', hread, hpath, hlarge, hdrained⟩ := read_of_short h (length_lt_of_lt hrest hn)
  refine ⟨r', hread, fun hover => ⟨hlarge hover, fun ns hns => ?_⟩, fun hfits ns => ?_⟩
  · obtain ⟨_, hreads, -⟩ := readAll_front hsize ns h hns
    rw [hlarge hover, hreads]
  · rw [← hpath]
    exact readAll_of_nothing ns (hdrained hfits)

end PrepReader

/-- **A failed read takes what is left.**  A file has some items and perhaps a part of another
one, fewer than `2 ^ 64` bytes in all; a reader has returned the first of them in any number of
reads.  Asked for more items than are left it reports that they have run out.  If the size of
what was asked for is not a machine word, the reader is as before and goes on with the items
that are left; otherwise it has nothing any more, and all later reads fail but those of no
items. -/
theorem PrepFile.failed_read_leaves (r s : RingName) (k : ItemKind) (path : String) (d : Disk)
    (items : List (ItemOf r.Carrier s.Carrier k)) (part : Bytes)
    (hpart : part.length < Stored.size (ItemOf r.Carrier s.Carrier k))
    (hsize : items.length * Stored.size (ItemOf r.Carrier s.Carrier k) < 2 ^ 64)
    (hfile : d.contents (Place.ofText path) = .ok
      (PrepWriter.header (ItemOf r.Carrier s.Carrier k) ++ (items.flatMap Stored.pack ++ part)))
    (before : List Nat) (hbefore : before.sum ≤ items.length) (n : Nat)
    (hn : items.length - before.sum < n) :
    ∃ start reader after,
      PrepReader.openFile (ItemOf r.Carrier s.Carrier k) d path = .ok start ∧
      start.readAll d before = ((before.splitLengths items).map .ok, reader) ∧
      reader.read (δ := ItemOf r.Carrier s.Carrier k) d n = (.error (.exhausted path), after) ∧
      (2 ^ 64 ≤ n * Stored.size (ItemOf r.Carrier s.Carrier k) →
        after = reader ∧ ∀ later : List Nat, later.sum ≤ items.length - before.sum →
          (after.readAll d later).1 = (later.splitLengths (items.drop before.sum)).map .ok) ∧
      (n * Stored.size (ItemOf r.Carrier s.Carrier k) < 2 ^ 64 → ∀ later : List Nat,
        (after.readAll (δ := ItemOf r.Carrier s.Carrier k) d later).1 =
          later.map fun m => if m = 0 then .ok [] else .error (.exhausted path)) := by
  obtain ⟨l, hlocate, hread⟩ := bind_eq_ok_iff.mp hfile
  obtain ⟨start, hopen, hpath, hahead⟩ :=
    PrepReader.openFile_of_header (ItemType.plain_signature r s k) hlocate hread
  obtain ⟨reader, hreads, hpath', hahead'⟩ := PrepReader.readAll_front hsize before hahead hbefore
  have hleft : (items.drop before.sum).length * Stored.size (ItemOf r.Carrier s.Carrier k) < 2 ^ 64 :=
    (Nat.mul_le_mul_right _ (by simp)).trans_lt hsize
  obtain ⟨after, hfailed, hover, hfits⟩ :=
    PrepReader.read_too_many hahead' hpart hleft (n := n) (by rwa [List.length_drop])
  rw [hpath', hpath] at hfailed hfits
  rw [List.length_drop] at hover
  exact ⟨start, reader, after, hopen, hreads, hfailed, hover, hfits⟩

namespace PrepFile

/-- A disk whose only file has the given items, and then some bytes. -/
def holding (items : List (Share Gf2 Gf128)) (part : Bytes) : Disk where
  root := .folder [("a", .file
    (PrepWriter.header (Share Gf2 Gf128) ++ (items.flatMap Stored.pack ++ part)))]
  home := []

theorem contents_holding (items : List (Share Gf2 Gf128)) (part : Bytes) :
    (holding items part).contents (Place.ofText "a") = .ok
      (PrepWriter.header (Share Gf2 Gf128) ++ (items.flatMap Stored.pack ++ part)) := by
  rw [holding]
  generalize PrepWriter.header (Share Gf2 Gf128) ++ (items.flatMap Stored.pack ++ part) = bs
  cbv

/-- Two of three shares are left, and a byte.  Asked for three, the reader fails, and has nothing
for later reads; asked for `2 ^ 64`, it fails, and returns the two one by one. -/
theorem failed_read_leaves_two :
    let d := holding [⟨1, 0⟩, ⟨0, 1⟩, ⟨1, 1⟩] [7]
    (∃ start reader after, PrepReader.openFile (Share Gf2 Gf128) d "a" = .ok start ∧
      start.readAll (δ := Share Gf2 Gf128) d [0, 1] = ([.ok [], .ok [⟨1, 0⟩]], reader) ∧
      reader.read (δ := Share Gf2 Gf128) d 3 = (.error (.exhausted "a"), after) ∧
      (after.readAll (δ := Share Gf2 Gf128) d [2, 0, 1]).1 =
        [.error (.exhausted "a"), .ok [], .error (.exhausted "a")]) ∧
    ∃ start reader after, PrepReader.openFile (Share Gf2 Gf128) d "a" = .ok start ∧
      start.readAll (δ := Share Gf2 Gf128) d [1] = ([.ok [⟨1, 0⟩]], reader) ∧
      reader.read (δ := Share Gf2 Gf128) d (2 ^ 64) = (.error (.exhausted "a"), after) ∧
      (after.readAll (δ := Share Gf2 Gf128) d [1, 1]).1 = [.ok [⟨0, 1⟩], .ok [⟨1, 1⟩]] := by
  intro d
  have hleaves := failed_read_leaves .gf2 .gf128 .share "a" d [⟨1, 0⟩, ⟨0, 1⟩, ⟨1, 1⟩] [7]
    (by decide) (by decide) (contents_holding _ _)
  constructor
  · obtain ⟨start, reader, after, hopen, hreads, hfailed, -, hdrained⟩ :=
      hleaves [0, 1] (by decide) 3 (by decide)
    exact ⟨start, reader, after, hopen, hreads, hfailed, hdrained (by decide) [2, 0, 1]⟩
  · obtain ⟨start, reader, after, hopen, hreads, hfailed, hkept, -⟩ :=
      hleaves [1] (by decide) (2 ^ 64) (by decide)
    exact ⟨start, reader, after, hopen, hreads, hfailed,
      (hkept (by decide)).2 [1, 1] (by decide)⟩

/-- One share is left and could be read.  After a failed attempt to read two it cannot. -/
theorem share_lost :
    let d := holding [⟨1, 0⟩] []
    ∃ reader after, PrepReader.openFile (Share Gf2 Gf128) d "a" = .ok reader ∧
      (reader.read (δ := Share Gf2 Gf128) d 1).1 = .ok [⟨1, 0⟩] ∧
      reader.read (δ := Share Gf2 Gf128) d 2 = (.error (.exhausted "a"), after) ∧
      (after.read (δ := Share Gf2 Gf128) d 1).1 = .error (.exhausted "a") := by
  intro d
  have : LawfulStored (Share Gf2 Gf128) := lawfulStoredShare .gf2 .gf128
  obtain ⟨l, hlocate, hread⟩ := bind_eq_ok_iff.mp (contents_holding [⟨1, 0⟩] [])
  obtain ⟨reader, hopen, hpath, hahead⟩ := PrepReader.openFile_of_header
    (ItemType.plain_signature .gf2 .gf128 .share) hlocate hread
  obtain ⟨_, hone, -⟩ := PrepReader.read_of_le hahead (Nat.le_refl 1) (by decide)
  obtain ⟨after, htwo, -, hdrained⟩ :=
    PrepReader.read_too_many hahead (by decide) (by decide) (n := 2) (by decide)
  have hlost := hdrained (by decide) [1]
  rw [hpath] at htwo hlost
  refine ⟨reader, after, hopen, congrArg Prod.fst hone, htwo, ?_⟩
  exact (List.cons.inj hlost).1

end PrepFile

end Beaver
