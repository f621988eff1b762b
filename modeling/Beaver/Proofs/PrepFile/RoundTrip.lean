import Mathlib
import Beaver.Proofs.PrepFile.Disks
import Beaver.Proofs.PrepFile.Headers

/-!
# Files give back what was written to them

A writer stands for the bytes that are in its file and its buffer (`PrepWriter.Holds`), a reader
for those that are in its buffer and ahead of it in its file (`PrepReader.Ahead`).  Every step of
a writer appends to its bytes, and every step of a reader takes from the front of its own, so
neither the sizes of the pieces nor the buffers can be seen from outside: items come back in
order however they were grouped when they were written and when they are read, until they run
out (`PrepFile.items_return`).
-/

namespace Beaver

open List
open ItemType (ItemOf)

/-- A step on the disk that succeeds. -/
theorem Storing.run_ofFiling_eq_ok {α : Type} {f : Filing α} {d d' : Disk} {a : α}
    (h : (Storing.ofFiling f).run d = (.ok a, d')) : f.run d = (.ok a, d') := by
  rcases hf : f.run d with ⟨result, middle⟩
  have hrun : (Storing.ofFiling f).run d = (result.mapError Error.system, middle) := by
    change (f.run >>= _) d = _
    simp only [bind, StateT.bind]
    rw [hf]
    cases result <;> rfl
  rw [hrun] at h
  cases result with
  | error e => cases h
  | ok b =>
    obtain ⟨hb, rfl⟩ := Prod.mk.inj h
    rw [Except.ok.inj hb]

namespace PrepWriter

/-- What was written is in the file, which the path leads to, and then in the buffer. -/
def Holds (w : PrepWriter) (d : Disk) (bs : Bytes) : Prop :=
  ∃ front, d.Holds (Place.ofText w.path) w.place front ∧ w.offset = front.length ∧
    front ++ w.buffer = bs

/-- A step of a writer appends bytes, and leaves the path and the number of items. -/
structure Appends (w : PrepWriter) (d : Disk) (more : Bytes) (out : PrepWriter × Disk) : Prop where
  path : out.1.path = w.path
  written : out.1.written = w.written
  holds {bs : Bytes} : w.Holds d bs → out.1.Holds out.2 (bs ++ more)

variable {w : PrepWriter} {d : Disk} {bs : Bytes}

/-- A step and one after it append both their bytes. -/
theorem Appends.trans {more last : Bytes} {out out' : PrepWriter × Disk} (h : w.Appends d more out)
    (h' : out.1.Appends out.2 last out') :
    w.Appends d (more ++ last) out' where
  path := h'.path.trans h.path
  written := h'.written.trans h.written
  holds hw := by
    rw [← append_assoc]
    exact h'.holds (h.holds hw)

theorem emit_appends (hbuffer : w.buffer = []) (d : Disk) (bs : Bytes) :
    w.Appends d bs ((w.emit bs).run d) where
  path := rfl
  written := rfl
  holds := by
    rintro _ ⟨front, hfile, hoffset, rfl⟩
    refine ⟨front ++ bs, ?_, ?_, ?_⟩
    · have hwrite := hfile.writeAt bs
      rwa [← hoffset] at hwrite
    · change w.offset + bs.length = (front ++ bs).length
      rw [hoffset, length_append]
    · change front ++ bs ++ w.buffer = front ++ w.buffer ++ bs
      rw [hbuffer, append_nil, append_nil]

theorem flush_appends (w : PrepWriter) (d : Disk) : w.Appends d [] (w.flush.run d) where
  path := rfl
  written := rfl
  holds := by
    rintro _ ⟨front, hfile, hoffset, rfl⟩
    refine ⟨front ++ w.buffer, ?_, ?_, rfl⟩
    · have hwrite := hfile.writeAt w.buffer
      rwa [← hoffset] at hwrite
    · change w.offset + w.buffer.length = (front ++ w.buffer).length
      rw [hoffset, length_append]

/-- Bytes that fit are put into the buffer. -/
theorem keep_appends (w : PrepWriter) (d : Disk) (bs : Bytes) :
    w.Appends d bs ({ w with buffer := w.buffer ++ bs }, d) where
  path := rfl
  written := rfl
  holds := by
    rintro _ ⟨front, hfile, hoffset, rfl⟩
    exact ⟨front, hfile, hoffset, (append_assoc ..).symm⟩

theorem push_appends (w : PrepWriter) (d : Disk) (bs : Bytes) :
    w.Appends d bs ((w.push bs).run d) := by
  by_cases hfull : bufferSize < w.buffer.length + bs.length
  · have hflush := w.flush_appends d
    by_cases hlong : bufferSize ≤ bs.length
    · have hrun : (w.push bs).run d = ((w.flush.run d).1.emit bs).run (w.flush.run d).2 := by
        simp only [push, if_pos hfull, if_pos hlong]
        rfl
      rw [hrun]
      exact hflush.trans (emit_appends rfl _ bs)
    · have hrun : (w.push bs).run d =
          ({ (w.flush.run d).1 with buffer := bs }, (w.flush.run d).2) := by
        simp only [push, if_pos hfull, if_neg hlong]
        rfl
      rw [hrun]
      exact hflush.trans (keep_appends _ _ bs)
  · by_cases hlong : bufferSize ≤ bs.length
    · -- the bytes fill the buffer exactly, which must be empty then
      have hbuffer : w.buffer = [] := eq_nil_of_length_eq_zero (by omega)
      have hrun : (w.push bs).run d = (w.emit bs).run d := by
        simp only [push, if_neg hfull, if_pos hlong]
        rfl
      rw [hrun]
      exact emit_appends hbuffer d bs
    · have hrun : (w.push bs).run d = ({ w with buffer := w.buffer ++ bs }, d) := by
        simp only [push, if_neg hfull, if_neg hlong]
        rfl
      rw [hrun]
      exact w.keep_appends d bs

variable {δ : Type} [Stored δ]

/-- A new file holds its header. -/
theorem create_holds {path : String} {d' : Disk} (h : (create δ path).run d = (.ok w, d')) :
    w.path = path ∧ w.written = 0 ∧ w.Holds d' (header δ) := by
  obtain ⟨place, d₁, hmake, hpush⟩ := Disk.run_bind_eq_ok h
  have hstart : (PrepWriter.mk path place 0 [] 0).Holds d₁ [] :=
    ⟨[], Disk.makeFile_holds (Storing.run_ofFiling_eq_ok hmake), rfl, rfl⟩
  have happends := (PrepWriter.mk path place 0 [] 0).push_appends d₁ (header δ)
  obtain ⟨hw, rfl⟩ := Prod.mk.inj hpush
  obtain rfl := Except.ok.inj hw
  exact ⟨happends.path, happends.written, happends.holds hstart⟩

/-- **Items written in any groups follow each other, and are counted.** -/
theorem write_holds (parts : List (List δ)) (h : w.Holds d bs) :
    ∃ w' d', (parts.foldlM write w).run d = (w', d') ∧ w'.path = w.path ∧
      w'.written = w.written + parts.flatten.length ∧
      w'.Holds d' (bs ++ parts.flatten.flatMap Stored.pack) := by
  induction parts generalizing w d bs with
  | nil => exact ⟨w, d, rfl, rfl, rfl, by simpa using h⟩
  | cons part parts ih =>
    have happends := w.push_appends d (part.flatMap Stored.pack)
    have hholds : ((write w part).run d).1.Holds ((write w part).run d).2
        (bs ++ part.flatMap Stored.pack) := happends.holds h
    obtain ⟨w', d', hrun, hpath, hwritten, hw'⟩ := ih hholds
    refine ⟨w', d', hrun, hpath.trans happends.path, ?_, ?_⟩
    · have hfirst : ((write w part).run d).1.written = w.written + part.length :=
        congrArg (· + part.length) happends.written
      rw [hwritten, hfirst, flatten_cons, length_append, Nat.add_assoc]
    · rwa [flatten_cons, flatMap_append, ← append_assoc]

/-- A completed file has everything that was written. -/
theorem finish_holds (h : w.Holds d bs) :
    ∃ d', w.finish.run d = (w.path, d') ∧ d'.Holds (Place.ofText w.path) w.place bs := by
  have happends := w.flush_appends d
  obtain ⟨front, hfile, -, hfront⟩ := happends.holds h
  obtain rfl : front = bs := by
    change front ++ [] = bs ++ [] at hfront
    rwa [append_nil, append_nil] at hfront
  exact ⟨(w.flush.run d).2, rfl, hfile⟩

end PrepWriter

namespace PrepReader

variable {d : Disk}

/-- What is still to be read: the rest of the buffer, and then of the file. -/
def Ahead (r : PrepReader) (d : Disk) (bs : Bytes) : Prop :=
  ∃ contents, d.read r.place = .ok contents ∧ r.buffer ++ contents.drop r.offset = bs

/-- Loading at least what is missing in a buffer: what is taken then, and what is left. -/
theorem load_ahead {buffer : Bytes} (rest : Bytes) {n m : Nat} (hn : buffer.length < n)
    (hm : n - buffer.length ≤ m) :
    (buffer ++ rest.take m).take n = (buffer ++ rest).take n ∧
    (buffer ++ rest.take m).drop n ++ rest.drop (rest.take m).length = (buffer ++ rest).drop n := by
  constructor
  · rw [take_append, take_append, take_take, Nat.min_eq_left hm]
  · have hleft : rest.drop (rest.take m).length = (rest.drop (n - buffer.length)).drop
        (m - (n - buffer.length)) := by
      rw [drop_drop, Nat.add_sub_cancel' hm, length_take]
      rcases Nat.le_total m rest.length with h | h
      · rw [Nat.min_eq_left h]
      · rw [Nat.min_eq_right h, drop_length, drop_eq_nil_of_le h]
    rw [drop_append, drop_append, drop_eq_nil_of_le hn.le, nil_append,
      nil_append, drop_take, hleft, take_append_drop]

variable {r : PrepReader} {bs front : Bytes}

/-- **A read takes from the front of what is ahead, whatever the buffer holds.** -/
theorem pull_ahead (h : r.Ahead d bs) (n : Nat) :
    ∃ r', r.pull d n = .ok (bs.take n, r') ∧ r'.path = r.path ∧ r'.Ahead d (bs.drop n) := by
  obtain ⟨contents, hread, rfl⟩ := h
  by_cases hn : n ≤ r.buffer.length
  · refine ⟨{ r with buffer := r.buffer.drop n }, ?_, rfl, contents, hread, ?_⟩
    · rw [pull, if_pos hn, take_append_of_le_length hn]
    · rw [drop_append_of_le_length hn]
  · generalize hrest : contents.drop r.offset = rest
    generalize hm : n - r.buffer.length + Intake.ahead r.buffer.length n = m
    have henough : n - r.buffer.length ≤ m := hm ▸ Nat.le_add_right ..
    obtain ⟨htake, hdrop⟩ := load_ahead rest (Nat.lt_of_not_le hn) henough
    refine ⟨{ r with
      offset := r.offset + (rest.take m).length
      buffer := (r.buffer ++ rest.take m).drop n }, ?_, rfl, contents, hread, ?_⟩
    · rw [pull, if_neg hn, hread, ← htake, ← hrest, ← hm]
      rfl
    · rw [← drop_drop, hrest, hdrop]

theorem pullExact_of_ahead {rest : Bytes} (h : r.Ahead d (front ++ rest)) :
    ∃ r', r.pullExact d front.length = .ok (front, r') ∧ r'.path = r.path ∧ r'.Ahead d rest := by
  obtain ⟨r', hpull, hpath, hahead⟩ := pull_ahead h front.length
  rw [take_left] at hpull
  rw [drop_left] at hahead
  refine ⟨r', ?_, hpath, hahead⟩
  rw [pullExact, hpull]
  exact if_pos rfl

theorem ahead_of_pullExact {r' : PrepReader} {n : Nat} (h : r.Ahead d bs)
    (hpull : r.pullExact d n = .ok (front, r')) :
    front.length = n ∧ ∃ rest, bs = front ++ rest ∧ r'.Ahead d rest := by
  obtain ⟨r'', hpull', -, hahead⟩ := pull_ahead h n
  rw [pullExact, hpull'] at hpull
  simp only [bind, Except.bind] at hpull
  split at hpull
  · next hlength =>
      obtain ⟨rfl, rfl⟩ := Prod.mk.inj (Except.ok.inj hpull)
      exact ⟨hlength, bs.drop n, (take_append_drop n bs).symm, hahead⟩
  · cases hpull

section Opening

variable {δ : Type} [Stored δ] {path : String}

/-- A file that starts with the header of its items is opened, and the reader stands behind
the header. -/
theorem openFile_of_header (hplain : Plain maxSignature (Stored.signature δ)) {l : Location}
    {rest : Bytes} (hlocate : d.locate (Place.ofText path) = .ok l)
    (hread : d.read l = .ok (PrepWriter.header δ ++ rest)) :
    ∃ r, openFile δ d path = .ok r ∧ r.path = path ∧ r.Ahead d rest := by
  have hshort := hplain.length_encode_le
  have hstart : (PrepReader.mk path l 0 []).Ahead d
      (Bytes.ofNatLE 8 (Utf8.encode (Stored.signature δ)).length ++
        (Utf8.encode (Stored.signature δ) ++ rest)) :=
    ⟨_, hread, by rw [← append_assoc]; rfl⟩
  obtain ⟨r₁, hcount, hpath₁, hahead₁⟩ := pullExact_of_ahead hstart
  obtain ⟨r₂, htext, hpath₂, hahead₂⟩ := pullExact_of_ahead hahead₁
  rw [Bytes.length_ofNatLE] at hcount
  refine ⟨r₂, ?_, hpath₂.trans hpath₁, hahead₂⟩
  have hn : Bytes.toNatLE (Bytes.ofNatLE 8 (Utf8.encode (Stored.signature δ)).length) =
      (Utf8.encode (Stored.signature δ)).length := by
    rw [Bytes.toNatLE_ofNatLE, Nat.mod_eq_of_lt]
    exact hshort.trans_lt (by decide)
  refine bind_eq_ok_iff.mpr ⟨l, by rw [hlocate]; rfl, bind_eq_ok_iff.mpr ⟨_, hcount, ?_⟩⟩
  simp only [hn, if_neg (Nat.not_lt.mpr hshort)]
  exact bind_eq_ok_iff.mpr ⟨_, htext, if_pos (hplain.ofList_lossy_eq_iff.mpr rfl)⟩

/-- A file that is opened starts with the header of its items. -/
theorem header_of_openFile (hplain : Plain maxSignature (Stored.signature δ))
    (hother : ∀ n : Nat, s!"<header of {n} bytes>" ≠ Stored.signature δ) {r : PrepReader}
    (h : openFile δ d path = .ok r) :
    ∃ bs, d.contents (Place.ofText path) = .ok bs ∧ PrepWriter.header δ <+: bs := by
  obtain ⟨l, hl, h⟩ := bind_eq_ok_iff.mp h
  obtain ⟨⟨front, r₁⟩, hcount, h⟩ := bind_eq_ok_iff.mp h
  have hlocate : d.locate (Place.ofText path) = .ok l := by
    cases hl' : d.locate (Place.ofText path) with
    | error e => simp [hl', Except.mapError] at hl
    | ok l' =>
      rw [hl'] at hl
      exact congrArg Except.ok (Except.ok.inj hl)
  obtain ⟨bs, hread⟩ : ∃ bs, d.read l = .ok bs := by
    cases hl' : d.read l with
    | error e => simp [pullExact, pull, hl', Except.mapError, bind, Except.bind] at hcount
    | ok bs => exact ⟨bs, rfl⟩
  refine ⟨bs, bind_eq_ok_iff.mpr ⟨l, hlocate, hread⟩, ?_⟩
  obtain ⟨hfront, rest, rfl, hahead⟩ := ahead_of_pullExact ⟨bs, hread, rfl⟩ hcount
  simp only at h
  split at h
  · obtain ⟨_, hfound, h⟩ := bind_eq_ok_iff.mp h
    obtain rfl := Except.ok.inj hfound
    simp only [if_neg (hother _)] at h
    cases h
  · obtain ⟨⟨text, r₂⟩, htext, h⟩ := bind_eq_ok_iff.mp h
    obtain ⟨hlength, rest, rfl, -⟩ := ahead_of_pullExact hahead htext
    obtain ⟨_, hfound, h⟩ := bind_eq_ok_iff.mp h
    obtain rfl := Except.ok.inj hfound
    simp only at h
    split at h
    · next hsignature =>
        obtain rfl := hplain.ofList_lossy_eq_iff.mp hsignature
        have hcounted : Bytes.ofNatLE 8 (Utf8.encode (Stored.signature δ)).length = front := by
          rw [hlength, ← hfront, Bytes.ofNatLE_toNatLE]
        exact ⟨rest, by rw [← hcounted]; exact append_assoc ..⟩
    · cases h

end Opening

section Reading

variable {δ : Type} [Stored δ]

/-- Reads one after the other: what each of them returned, and the reader after the last one. -/
def readAll (d : Disk) : List Nat → PrepReader → List (Except Error (List δ)) × PrepReader
  | [], r => ([], r)
  | n :: ns, r =>
    let (xs, r) := r.read d n
    let (rest, r) := readAll d ns r
    (xs :: rest, r)

variable [LawfulStored δ]
variable {r : PrepReader} {xs : List δ} {rest : Bytes} {n : Nat}

/-- A read of items that are there returns them, and leaves the others with all that follows
them. -/
theorem read_of_le (h : r.Ahead d (xs.flatMap Stored.pack ++ rest)) (hn : n ≤ xs.length)
    (hsize : n * Stored.size δ < 2 ^ 64) :
    ∃ r', r.read d n = (.ok (xs.take n), r') ∧ r'.path = r.path ∧
      r'.Ahead d ((xs.drop n).flatMap Stored.pack ++ rest) := by
  obtain ⟨r', hpull, hpath, hahead⟩ := pull_ahead h (n * Stored.size δ)
  obtain ⟨htake, hdrop⟩ := cut_flatMap_pack hn
  have hfront : n * Stored.size δ ≤ (xs.flatMap Stored.pack).length := by
    rw [length_flatMap_pack]
    exact Nat.mul_le_mul_right _ hn
  rw [take_append_of_le_length hfront, htake] at hpull
  rw [drop_append_of_le_length hfront, hdrop] at hahead
  refine ⟨r', ?_, hpath, hahead⟩
  have hlength : ((xs.take n).flatMap Stored.pack).length = n * Stored.size δ := by
    rw [length_flatMap_pack, length_take_of_le hn]
  have hfits : ¬ Nat.pow 2 64 ≤ n * Stored.size δ := Nat.not_le.mpr hsize
  simp only [read, hpull, if_neg hfits, if_neg (Nat.not_lt.mpr hlength.ge), unpack_batches]

omit [LawfulStored δ] in
/-- A read of more than is there fails.  It takes what is there, unless it is too large to be
tried at all. -/
theorem read_of_short {bs : Bytes} (h : r.Ahead d bs) (hn : bs.length < n * Stored.size δ) :
    ∃ r', r.read (δ := δ) d n = (.error (.exhausted r.path), r') ∧ r'.path = r.path ∧
      (2 ^ 64 ≤ n * Stored.size δ → r' = r) ∧ (n * Stored.size δ < 2 ^ 64 → r'.Ahead d []) := by
  by_cases hsize : 2 ^ 64 ≤ n * Stored.size δ
  · refine ⟨r, ?_, rfl, fun _ => rfl, fun hfits => absurd hsize (Nat.not_le.mpr hfits)⟩
    simp only [read, Nat.pow_eq, if_pos hsize]
  · obtain ⟨r', hpull, hpath, hahead⟩ := pull_ahead h (n * Stored.size δ)
    rw [take_of_length_le hn.le] at hpull
    rw [drop_eq_nil_of_le hn.le] at hahead
    refine ⟨r', ?_, hpath, fun hlarge => absurd hlarge hsize, fun _ => hahead⟩
    simp only [read, hpull, Nat.pow_eq, if_neg hsize, if_pos hn, hpath]

/-- A read of more items than are there fails. -/
theorem read_of_lt (h : r.Ahead d (xs.flatMap Stored.pack)) (hn : xs.length < n) :
    (r.read (δ := δ) d n).1 = .error (.exhausted r.path) := by
  have hshort : (xs.flatMap Stored.pack).length < n * Stored.size δ := by
    rw [length_flatMap_pack]
    exact Nat.mul_lt_mul_of_pos_right hn LawfulStored.size_pos
  obtain ⟨r', hread, -⟩ := read_of_short h hshort
  rw [hread]

/-- **Reads that do not exceed the items return them segment by segment**, and leave what
follows them. -/
theorem readAll_front (hsize : xs.length * Stored.size δ < 2 ^ 64) (ns : List Nat)
    (h : r.Ahead d (xs.flatMap Stored.pack ++ rest)) (hns : ns.sum ≤ xs.length) :
    ∃ r', readAll d ns r = ((ns.splitLengths xs).map .ok, r') ∧ r'.path = r.path ∧
      r'.Ahead d ((xs.drop ns.sum).flatMap Stored.pack ++ rest) := by
  induction ns generalizing r xs with
  | nil => exact ⟨r, rfl, rfl, h⟩
  | cons n ns ih =>
    rw [sum_cons] at hns
    have hfirst : n * Stored.size δ < 2 ^ 64 :=
      (Nat.mul_le_mul_right _ (by omega)).trans_lt hsize
    obtain ⟨r₁, hread, hpath₁, hahead₁⟩ := read_of_le h (by omega) hfirst
    have hrest : (xs.drop n).length * Stored.size δ < 2 ^ 64 :=
      (Nat.mul_le_mul_right _ (by simp)).trans_lt hsize
    obtain ⟨r₂, hreads, hpath₂, hahead₂⟩ := ih hrest hahead₁ (by rw [length_drop]; omega)
    refine ⟨r₂, ?_, hpath₂.trans hpath₁, ?_⟩
    · simp only [readAll, hread, hreads, splitLengths_cons, map_cons]
    · rwa [drop_drop, ← sum_cons] at hahead₂

theorem readAll_of_le (hsize : xs.length * Stored.size δ < 2 ^ 64) (ns : List Nat)
    (h : r.Ahead d (xs.flatMap Stored.pack)) (hns : ns.sum ≤ xs.length) :
    ∃ r', readAll d ns r = ((ns.splitLengths xs).map .ok, r') ∧ r'.path = r.path ∧
      r'.Ahead d ((xs.drop ns.sum).flatMap Stored.pack) := by
  rw [← append_nil (xs.flatMap Stored.pack)] at h
  simpa only [append_nil] using readAll_front hsize ns h hns

end Reading

end PrepReader

/-- **Files give back what was written to them.**  However many groups of items were written to
a file, all of them are counted; a reader of the file returns the items in order, cut into
the numbers asked for, as long as there are enough, and reports that they have run out as soon
as there are not.  A file has fewer than `2 ^ 64` bytes.  In general a file can be opened if
and only if it starts with the length and the bytes of the signature of its items. -/
theorem PrepFile.items_return (r s : RingName) (k : ItemKind) (path : String) (d : Disk) :
    (∀ (w : PrepWriter) (d₀ : Disk) (parts : List (List (ItemOf r.Carrier s.Carrier k))),
      (PrepWriter.create (ItemOf r.Carrier s.Carrier k) path).run d = (.ok w, d₀) →
      ∃ w' d₁ d₂, (parts.foldlM PrepWriter.write w).run d₀ = (w', d₁) ∧
        w'.written = parts.flatten.length ∧ w'.finish.run d₁ = (path, d₂) ∧
        ∃ reader, PrepReader.openFile (ItemOf r.Carrier s.Carrier k) d₂ path = .ok reader ∧
          (parts.flatten.length * Stored.size (ItemOf r.Carrier s.Carrier k) < 2 ^ 64 →
            ∀ ns : List Nat, ns.sum ≤ parts.flatten.length →
              ∃ reader', reader.readAll d₂ ns = ((ns.splitLengths parts.flatten).map .ok, reader') ∧
                ∀ n, parts.flatten.length < ns.sum + n →
                  (reader'.read (δ := ItemOf r.Carrier s.Carrier k) d₂ n).1 =
                    .error (.exhausted path))) ∧
    ((∃ reader, PrepReader.openFile (ItemOf r.Carrier s.Carrier k) d path = .ok reader) ↔
      ∃ bs, d.contents (Place.ofText path) = .ok bs ∧
        let signature := Utf8.encode (Stored.signature (ItemOf r.Carrier s.Carrier k))
        Bytes.ofNatLE 8 signature.length ++ signature <+: bs) := by
  have hplain := ItemType.plain_signature r s k
  constructor
  · intro w d₀ parts hcreate
    obtain ⟨hpath, hzero, hheader⟩ := PrepWriter.create_holds hcreate
    obtain ⟨w', d₁, hwrite, hpath', hwritten, hholds⟩ := PrepWriter.write_holds parts hheader
    obtain ⟨d₂, hfinish, hfile⟩ := PrepWriter.finish_holds hholds
    rw [hpath', hpath] at hfinish hfile
    obtain ⟨reader, hopen, hreader, hahead⟩ :=
      PrepReader.openFile_of_header hplain hfile.locate hfile.read
    refine ⟨w', d₁, d₂, hwrite, by rw [hwritten, hzero, Nat.zero_add], hfinish, reader, hopen, ?_⟩
    intro hsize ns hns
    obtain ⟨reader', hreads, hreader', hahead'⟩ := PrepReader.readAll_of_le hsize ns hahead hns
    refine ⟨reader', hreads, fun n hn => ?_⟩
    rw [← hreader, ← hreader']
    exact PrepReader.read_of_lt hahead' (by rw [length_drop]; omega)
  · constructor
    · rintro ⟨reader, hopen⟩
      exact PrepReader.header_of_openFile hplain (ItemType.signature_ne_description r s k) hopen
    · rintro ⟨bs, hcontents, rest, rfl⟩
      obtain ⟨l, hlocate, hread⟩ := bind_eq_ok_iff.mp hcontents
      obtain ⟨reader, hopen, -⟩ := PrepReader.openFile_of_header hplain hlocate hread
      exact ⟨reader, hopen⟩

/-- Three shares are written in two groups and read in two others; a fourth is not there. -/
theorem PrepFile.items_return_three :
    ∃ (w w' : PrepWriter) (d₀ d₁ d₂ : Disk) (reader reader' : PrepReader),
      (PrepWriter.create (Share Gf2 Gf128) "a/b").run Disk.empty = (.ok w, d₀) ∧
      ([[⟨1, 0⟩, ⟨0, 1⟩], [], [⟨1, 1⟩]].foldlM (PrepWriter.write (δ := Share Gf2 Gf128)) w).run d₀ =
        (w', d₁) ∧
      w'.written = 3 ∧ w'.finish.run d₁ = ("a/b", d₂) ∧
      PrepReader.openFile (Share Gf2 Gf128) d₂ "a/b" = .ok reader ∧
      reader.readAll (δ := Share Gf2 Gf128) d₂ [1, 0, 2] =
        ([.ok [⟨1, 0⟩], .ok [], .ok [⟨0, 1⟩, ⟨1, 1⟩]], reader') ∧
      (reader'.read (δ := Share Gf2 Gf128) d₂ 1).1 = .error (.exhausted "a/b") := by
  have hok : ((PrepWriter.create (Share Gf2 Gf128) "a/b").run Disk.empty).1.isOk = true := by
    cbv
  rcases hcreate : (PrepWriter.create (Share Gf2 Gf128) "a/b").run Disk.empty with
    ⟨_ | w, d₀⟩
  · rw [hcreate] at hok
    cases hok
  · obtain ⟨w', d₁, d₂, hwrite, hwritten, hfinish, reader, hopen, hreads⟩ :=
      (PrepFile.items_return .gf2 .gf128 .share "a/b" Disk.empty).1 w d₀
        [[⟨1, 0⟩, ⟨0, 1⟩], [], [⟨1, 1⟩]] hcreate
    obtain ⟨reader', hreads, hend⟩ := hreads (by decide) [1, 0, 2] (by decide)
    exact ⟨w, w', d₀, d₁, d₂, reader, reader', rfl, hwrite, hwritten, hfinish, hopen, hreads,
      hend 1 (by decide)⟩

end Beaver
