import Beaver.PrepFile.Disk
import Beaver.Proofs.WireForms

/-!
# What a new file leads to

Putting something into the tree changes what is found there and leaves every folder a folder,
unless a folder is replaced.  A path is followed through folders only, so it leads to the same
place before and after; a file that was made can therefore be found again under its path,
and still can after bytes were written to it (`Disk.makeFile_holds`, `Disk.Holds.writeAt`).
-/

namespace Beaver

open List

namespace Entry

variable {entries : List (String × Entry)} {e : Entry}

theorem lookup_filter_ne {name other : String} (h : other ≠ name) :
    (entries.filter (·.1 != name)).lookup other = entries.lookup other := by
  induction entries with
  | nil => rfl
  | cons entry entries ih =>
    by_cases hname : entry.1 = name
    · have hother : (other == entry.1) = false := by simpa [hname] using h
      rw [filter_cons_of_neg (by simp [hname]), ih, lookup_cons, hother]
    · rw [filter_cons_of_pos (by simp [hname]), lookup_cons, lookup_cons, ih]

/-- An entry that is replaced is found. -/
theorem find?_insert_of_isSome (new : Entry) (names : List String) (h : (e.find? names).isSome) :
    (insert new names e).find? names = some new := by
  induction names generalizing e with
  | nil => rfl
  | cons name names ih =>
    cases e with
    | file contents => simp [find?] at h
    | folder entries =>
      cases hlookup : entries.lookup name with
      | none => simp [find?, hlookup] at h
      | some below =>
        have hbelow : (below.find? names).isSome := by simpa [find?, hlookup] using h
        simp [insert, find?, hlookup, ih hbelow]

/-- A new entry of a folder is found. -/
theorem find?_insert_of_folder (new : Entry) (names : List String) (last : String)
    (h : e.find? names = some (folder entries)) :
    (insert new (names ++ [last]) e).find? (names ++ [last]) = some new := by
  induction names generalizing e with
  | nil =>
    obtain rfl : e = folder entries := by simpa [find?] using h
    simp [insert, find?]
  | cons name names ih =>
    cases e with
    | file contents => simp [find?] at h
    | folder entries =>
      cases hlookup : entries.lookup name with
      | none => simp [find?, hlookup] at h
      | some below =>
        have hbelow := ih (e := below) (by simpa [find?, hlookup] using h)
        simp [insert, find?, hlookup, hbelow]

/-- Folders stay folders unless one is replaced. -/
theorem find?_insert_eq_folder (new : Entry) (names : List String)
    (hnames : ∀ entries, e.find? names ≠ some (folder entries)) {path : List String}
    (h : e.find? path = some (folder entries)) :
    ∃ entries, (insert new names e).find? path = some (folder entries) := by
  induction names generalizing e path with
  | nil =>
    cases e with
    | folder entries => exact absurd rfl (hnames entries)
    | file contents => cases path <;> simp [find?] at h
  | cons name names ih =>
    cases e with
    | file contents => exact ⟨entries, h⟩
    | folder all =>
      cases path with
      | nil => exact ⟨_, rfl⟩
      | cons first path =>
        by_cases hfirst : first = name
        · subst hfirst
          cases hlookup : all.lookup first with
          | none => simp [find?, hlookup] at h
          | some below =>
            have hbelow : below.find? path = some (folder entries) := by
              simpa [find?, hlookup] using h
            obtain ⟨kept, hkept⟩ := ih (by simpa [find?, hlookup] using hnames) hbelow
            exact ⟨kept, by simp [insert, find?, hlookup, hkept]⟩
        · have hother : (first == name) = false := by simpa using hfirst
          refine ⟨entries, ?_⟩
          simpa [insert, find?, lookup_cons, hother, lookup_filter_ne hfirst] using h

end Entry

namespace Disk

/-- There is a folder at a location. -/
def IsFolder (d : Disk) (l : Location) : Prop :=
  ∃ entries, d.find? l = some (.folder entries)

/-- Every folder of the one disk is a folder of the other. -/
structure Extends (d d' : Disk) : Prop where
  home : d'.home = d.home
  folder {l : Location} : d.IsFolder l → d'.IsFolder l

variable {d d' : Disk} {l : Location} {p : Place}

theorem insert_extends (h : ¬ d.IsFolder l) (e : Entry) : d.Extends (d.insert l e) where
  home := rfl
  folder := by
    rintro l' ⟨entries, hl'⟩
    exact Entry.find?_insert_eq_folder e l.reverse (fun entries hl => h ⟨entries, hl⟩) hl'

/-- A step goes through a folder. -/
theorem step_eq_ok {l' : Location} {part : String} (h : d.step l part = .ok l') : d.IsFolder l := by
  simp only [step] at h
  split at h
  · cases h
  · cases h
  · next entries hl => exact ⟨entries, hl⟩

/-- From a folder, a step depends on its part only. -/
theorem step_of_isFolder (h : d.IsFolder l) (part : String) :
    d.step l part = if Place.isBlank part then .ok l
      else if part == ".." then .ok l.tail
      else if maxName < part.utf8ByteSize then .error .invalidName
      else .ok (part :: l) := by
  obtain ⟨entries, hl⟩ := h
  rw [step, hl]

namespace Extends

variable {d d' : Disk}
variable {l l' : Location}

theorem step_eq (h : d.Extends d') {part : String} (hstep : d.step l part = .ok l') :
    d'.step l part = .ok l' := by
  have hl := step_eq_ok hstep
  rw [step_of_isFolder (h.folder hl), ← step_of_isFolder hl, hstep]

theorem walk_eq (h : d.Extends d') {parts : List String} (hwalk : d.walk l parts = .ok l') :
    d'.walk l parts = .ok l' := by
  induction parts generalizing l with
  | nil => exact hwalk
  | cons part parts ih =>
    obtain ⟨middle, hstep, hrest⟩ := bind_eq_ok_iff.mp hwalk
    exact bind_eq_ok_iff.mpr ⟨middle, h.step_eq hstep, ih hrest⟩

theorem start_eq (h : d.Extends d') (p : Place) : d'.start p = d.start p := by
  rw [start, start, h.home]

theorem admissible_eq (h : d.Extends d') (p : Place) : d'.admissible p = d.admissible p := by
  rw [admissible, admissible, pathSize, pathSize, h.home]

end Extends

/-- The parts of a path without slashes at its end are all parts if no slash was there. -/
theorem trimmed_eq {parts : List String} {last : String}
    (hlast : (parts.reverse.dropWhile (· == "")).reverse.getLast? = some last)
    (hlength : ¬ (parts.reverse.dropWhile (· == "")).reverse.length < parts.length) :
    (parts.reverse.dropWhile (· == "")).reverse = parts ∧ last ≠ "" := by
  constructor
  · have hprefix : (parts.reverse.dropWhile (· == "")).reverse <+: parts := by
      rw [← reverse_suffix, reverse_reverse]
      exact dropWhile_suffix _
    exact hprefix.eq_of_length_le (by omega)
  · rintro rfl
    have hnot := head?_dropWhile_not (· == "") parts.reverse
    rw [getLast?_reverse] at hlast
    simp [hlast] at hnot

/-- What a file is made at: a name that is not that of a folder, in a folder that the other
parts of the path lead to. -/
theorem fileLocation_eq_ok (h : d.fileLocation p = .ok l) :
    d.admissible p = .ok () ∧ d.walk (d.start p) p.parts = .ok l ∧ ¬ d.IsFolder l ∧
      ∃ name above, l = name :: above ∧ d.IsFolder above := by
  obtain ⟨_, hadmissible, h⟩ := bind_eq_ok_iff.mp h
  obtain ⟨above, habove, h⟩ := bind_eq_ok_iff.mp h
  obtain ⟨here, hhere, h⟩ := bind_eq_ok_iff.mp h
  have hfolder := step_eq_ok hhere
  obtain rfl : above = here := by
    rw [step_of_isFolder hfolder, if_pos (by rfl)] at hhere
    exact Except.ok.inj hhere
  split at h
  · cases h
  · next last hlast =>
    split at h
    · cases h
    · next hgood =>
      obtain ⟨l', hstep, h⟩ := bind_eq_ok_iff.mp h
      obtain ⟨rfl, hfile⟩ : l' = l ∧ ¬ d.IsFolder l := by
        split at h
        · cases h
        · next hnone =>
            obtain rfl := Except.ok.inj h
            exact ⟨rfl, fun ⟨entries, hentries⟩ => hnone entries hentries⟩
      simp only [Bool.or_eq_true, beq_iff_eq, decide_eq_true_eq, not_or] at hgood
      obtain ⟨⟨hdot, hdots⟩, hlength⟩ := hgood
      obtain ⟨htrimmed, hne⟩ := trimmed_eq hlast hlength
      rw [htrimmed] at hlast habove
      have hwalk : d.walk (d.start p) p.parts = .ok l' := by
        rw [← dropLast_append_getLast? last hlast, walk, foldlM_append]
        exact bind_eq_ok_iff.mpr ⟨above, habove, bind_eq_ok_iff.mpr ⟨l', hstep, rfl⟩⟩
      refine ⟨hadmissible, hwalk, hfile, last, above, ?_, hfolder⟩
      have hblank : Place.isBlank last = false := by simp [Place.isBlank, hne, hdot]
      have hup : (last == "..") = false := by simpa using hdots
      rw [step_of_isFolder hfolder, hblank, hup] at hstep
      simp only [Bool.false_eq_true, if_false] at hstep
      split at hstep
      · cases hstep
      · exact (Except.ok.inj hstep).symm

/-- A path leads to a file with the given contents. -/
structure Holds (d : Disk) (p : Place) (l : Location) (bs : Bytes) : Prop where
  admissible : d.admissible p = .ok ()
  walk : d.walk (d.start p) p.parts = .ok l
  file : d.find? l = some (.file bs)

namespace Holds

variable {d d' : Disk} {p : Place} {l : Location} {bs : Bytes}

theorem locate (h : d.Holds p l bs) : d.locate p = .ok l := by
  refine bind_eq_ok_iff.mpr ⟨(), h.admissible, bind_eq_ok_iff.mpr ⟨l, h.walk, if_pos ?_⟩⟩
  rw [h.file]
  rfl

theorem read (h : d.Holds p l bs) : d.read l = .ok bs := by
  rw [Disk.read, h.file]

theorem of_extends (h : d.Extends d') (hadmissible : d.admissible p = .ok ())
    (hwalk : d.walk (d.start p) p.parts = .ok l) (hfile : d'.find? l = some (.file bs)) :
    d'.Holds p l bs where
  admissible := (h.admissible_eq p).trans hadmissible
  walk := by
    rw [h.start_eq]
    exact h.walk_eq hwalk
  file := hfile

/-- Bytes written at the end of a file are in it behind the others. -/
theorem writeAt (h : d.Holds p l bs) (more : Bytes) :
    (d.writeAt l bs.length more).Holds p l (bs ++ more) := by
  have hfile : ¬ d.IsFolder l := by
    rintro ⟨entries, hentries⟩
    simp [h.file] at hentries
  cases more with
  | nil => simpa [Disk.writeAt] using h
  | cons b more =>
    have hwrite : d.writeAt l bs.length (b :: more) = d.insert l (.file (bs ++ b :: more)) := by
      have hpast : bs.length ≤ bs.length + (b :: more).length := by omega
      simp only [Disk.writeAt, h.file, take_length, Nat.sub_self, replicate_zero,
        append_nil, drop_eq_nil_of_le hpast]
    rw [hwrite]
    refine of_extends (insert_extends hfile _) h.admissible h.walk ?_
    exact Entry.find?_insert_of_isSome _ _ (Option.isSome_of_eq_some h.file)

end Holds

/-- A composed step on a disk succeeds if its parts do. -/
theorem run_bind_eq_ok {ε α β : Type} {x : ExceptT ε (StateM Disk) α}
    {f : α → ExceptT ε (StateM Disk) β} {b : β} (h : (x >>= f).run d = (.ok b, d')) :
    ∃ a middle, x.run d = (.ok a, middle) ∧ (f a).run middle = (.ok b, d') := by
  rcases hx : x.run d with ⟨r, middle⟩
  have hbind : (x >>= f).run d = ExceptT.bindCont f r middle :=
    congrArg (fun q : Except ε α × Disk => ExceptT.bindCont f q.1 q.2) hx
  cases r with
  | error e => cases hbind.symm.trans h
  | ok a => exact ⟨a, middle, rfl, hbind.symm.trans h⟩

/-- **A file that was made is found under its path, and is empty.** -/
theorem makeFile_holds (h : (makeFile p).run d = (.ok l, d')) : d'.Holds p l [] := by
  obtain ⟨_, d₁, -, hfile⟩ := run_bind_eq_ok h
  obtain ⟨l', d₂, hlook, hinsert⟩ := run_bind_eq_ok hfile
  obtain ⟨hl', rfl⟩ := Prod.mk.inj hlook
  obtain ⟨hl, rfl⟩ := Prod.mk.inj hinsert
  obtain rfl := Except.ok.inj hl
  change d₁.fileLocation p = .ok l' at hl'
  obtain ⟨hadmissible, hwalk, hnot, name, above, rfl, entries, habove⟩ := fileLocation_eq_ok hl'
  refine .of_extends (insert_extends hnot _) hadmissible hwalk ?_
  have hfind := Entry.find?_insert_of_folder (.file []) above.reverse name habove
  rwa [← reverse_cons] at hfind

end Disk

end Beaver
