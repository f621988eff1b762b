import Mathlib
import Beaver.PrepFile.Path
import Beaver.PrepFile.Place
import Beaver.Ring.Name

/-!
# No two sets of data share a file

A path goes by the names of its folder, then the name of a folder for the number of parties and
the ring, then the name of the file (`PrepFile.names_path`).  Neither of the last two has a slash,
and cutting them at their dashes gives back what they were made of: the decimal digits of a number
hold no dash, and neither do the names of rings and kinds.  So different data have different paths,
also when blank parts of a path do not count (`PrepFile.path_injective`).
-/

namespace Beaver

open List
open ShareRing

/-- Only digits stand in a written number. -/
theorem notMem_toDigits {c : Char} (hc : c.isDigit = false) (n : Nat) : c ∉ Nat.toDigits 10 n := by
  intro h
  rw [Nat.isDigit_of_mem_toDigits (by decide) (by decide) h] at hc
  cases hc

theorem toDigits_injective : Function.Injective (Nat.toDigits 10) := fun n n' h => by
  rw [← Nat.ofDigitChars_ten_toDigits (n := n), h, Nat.ofDigitChars_ten_toDigits]

namespace RingName

theorem name_injective {r r' : RingName} (h : name r.Carrier = name r'.Carrier) : r = r' := by
  revert h
  cases r <;> cases r' <;> decide

theorem notMem_name (r : RingName) :
    '-' ∉ (name r.Carrier).toList ∧ '/' ∉ (name r.Carrier).toList := by
  cases r <;> decide

end RingName

namespace DataKind

/-- The owner of input masks. -/
def owner? : DataKind → Option Nat
  | inputs owner => some owner
  | _ => none

/-- A kind is known by its name and its owner. -/
theorem eq_of_name {k k' : DataKind} (hname : k.name = k'.name) (howner : k.owner? = k'.owner?) :
    k = k' := by
  revert hname howner
  cases k <;> cases k' <;> simp [name, owner?]

theorem notMem_name (k : DataKind) : '-' ∉ k.name.toList ∧ '/' ∉ k.name.toList := by
  cases k <;> simp [name]

theorem toList_suffix (k : DataKind) :
    k.suffix.toList = k.owner?.elim [] fun owner => '-' :: Nat.toDigits 10 owner := by
  cases k with
  | inputs owner =>
    simp only [suffix, String.toList_append, Nat.toString_eq_ofList_toDigits, String.toList_ofList]
    rfl
  | triples | squares | bits | inverses => rfl

end DataKind

namespace PrepFile

section Names

variable (r : RingName) (parties : Nat) (kind : DataKind) (me : Nat)

/-- The name of the folder of a ring. -/
def folderName : String := s!"{parties}-{name r.Carrier}-{bits r.Carrier}"

/-- The name of the file of a party. -/
def fileName : String := s!"{kind.name}-{name r.Carrier}-P{me}{kind.suffix}"

theorem toList_folderName : (folderName r parties).toList = Nat.toDigits 10 parties ++ '-' ::
    ((name r.Carrier).toList ++ '-' :: Nat.toDigits 10 (bits r.Carrier)) := by
  simp only [folderName, String.toList_append, append_assoc, Nat.toString_eq_ofList_toDigits,
    String.toList_ofList]
  rfl

theorem toList_fileName : (fileName r kind me).toList = kind.name.toList ++ '-' ::
    ((name r.Carrier).toList ++ '-' :: ('P' :: Nat.toDigits 10 me ++ kind.suffix.toList)) := by
  simp only [fileName, String.toList_append, append_assoc, Nat.toString_eq_ofList_toDigits,
    String.toList_ofList]
  rfl

/-- Cut at its dashes, the name of a folder gives the number of parties and the ring. -/
theorem splitOn_folderName : (folderName r parties).toList.splitOn '-'
    = [Nat.toDigits 10 parties, (name r.Carrier).toList, Nat.toDigits 10 (bits r.Carrier)] := by
  rw [toList_folderName,
    splitOn_append_cons_self_of_not_mem (notMem_toDigits (by decide) _),
    splitOn_append_cons_self_of_not_mem r.notMem_name.1,
    splitOn_eq_singleton (notMem_toDigits (by decide) _)]

/-- Cut at its dashes, the name of a file gives the kind, the ring, the party and any owner. -/
theorem splitOn_fileName : (fileName r kind me).toList.splitOn '-'
    = kind.name.toList :: (name r.Carrier).toList :: ('P' :: Nat.toDigits 10 me) ::
      kind.owner?.toList.map fun owner => Nat.toDigits 10 owner := by
  have hparty : '-' ∉ 'P' :: Nat.toDigits 10 me := by
    rw [mem_cons, not_or]
    exact ⟨by decide, notMem_toDigits (by decide) me⟩
  rw [toList_fileName, splitOn_append_cons_self_of_not_mem kind.notMem_name.1,
    splitOn_append_cons_self_of_not_mem r.notMem_name.1, kind.toList_suffix]
  cases kind.owner? with
  | none =>
    rw [Option.elim_none, append_nil, splitOn_eq_singleton hparty]
    rfl
  | some owner =>
    rw [Option.elim_some, splitOn_append_cons_self_of_not_mem hparty,
      splitOn_eq_singleton (notMem_toDigits (by decide) _)]
    rfl

/-- A text without slashes that is the name of something in a folder. -/
def IsName (text : String) : Prop :=
  '/' ∉ text.toList ∧ Place.isBlank text = false

theorem isName_of_dash {text : String} (hslash : '/' ∉ text.toList) (hdash : '-' ∈ text.toList) :
    IsName text := by
  refine ⟨hslash, ?_⟩
  rw [Place.isBlank, Bool.or_eq_false_iff, beq_eq_false_iff_ne, beq_eq_false_iff_ne]
  constructor
  · rintro rfl
    exact absurd hdash (by decide)
  · rintro rfl
    exact absurd hdash (by decide)

theorem isName_folderName : IsName (folderName r parties) := by
  have hdigits : ∀ n, '/' ∉ Nat.toDigits 10 n := notMem_toDigits (by decide)
  refine isName_of_dash ?_ (by rw [toList_folderName]; simp)
  simp [toList_folderName, hdigits, r.notMem_name]

theorem isName_fileName : IsName (fileName r kind me) := by
  have hdigits : ∀ n, '/' ∉ Nat.toDigits 10 n := notMem_toDigits (by decide)
  refine isName_of_dash ?_ (by rw [toList_fileName]; simp)
  simp only [toList_fileName, kind.toList_suffix]
  cases kind.owner? with
  | none => simp [hdigits, r.notMem_name, kind.notMem_name]
  | some owner => simp [hdigits, r.notMem_name, kind.notMem_name]

end Names

/-- Something in a folder goes by the names of the folder and its own. -/
theorem names_below {folder name : String} (hname : IsName name) :
    (Place.ofText (below folder name)).names = (Place.ofText folder).names ++ [name] := by
  obtain ⟨hslash, hblank⟩ := hname
  have happend : ∀ front : List Char, (Place.mk (((front ++ '/' :: name.toList).splitOn '/').map
      String.ofList)).names = (Place.mk ((front.splitOn '/').map String.ofList)).names ++ [name] := by
    intro front
    rw [splitOn_append_cons_self, splitOn_eq_singleton hslash]
    simp [Place.names, hblank]
  rw [below]
  split
  · next hend =>
      rcases (Bool.or_eq_true _ _).mp hend with hempty | hend
      · rw [beq_iff_eq.mp hempty, String.empty_append, Place.ofText, splitOn_eq_singleton hslash]
        have hnone : (Place.ofText "").names = [] := by decide
        rw [hnone]
        simp [Place.names, hblank]
      · rw [String.endsWith_eq_endsWith_toSlice, String.Slice.endsWith_string_iff,
          String.copy_toSlice] at hend
        obtain ⟨front, hfront⟩ := hend
        have htext : folder.toList = front ++ '/' :: [] := hfront.symm
        rw [Place.ofText, Place.ofText, String.toList_append, htext, append_assoc,
          cons_append, nil_append, happend, splitOn_append_cons_self]
        simp [Place.names, Place.isBlank]
  · next hend =>
      rw [Place.ofText, String.toList_append, String.toList_append, append_assoc]
      exact happend folder.toList

variable {r r' : RingName} {parties parties' : Nat} {kind kind' : DataKind} {me me' : Nat}

theorem names_path (folder : String) : (Place.ofText (path r.Carrier folder parties kind me)).names
    = (Place.ofText folder).names ++ [folderName r parties, fileName r kind me] := by
  change (Place.ofText (below (below folder (folderName r parties)) (fileName r kind me))).names = _
  rw [names_below (isName_fileName r kind me), names_below (isName_folderName r parties),
    append_assoc]
  rfl

theorem eq_of_names (hfolder : folderName r parties = folderName r' parties')
    (hfile : fileName r kind me = fileName r' kind' me') :
    parties = parties' ∧ r = r' ∧ kind = kind' ∧ me = me' := by
  have hfolder := congrArg (·.toList.splitOn '-') hfolder
  have hfile := congrArg (·.toList.splitOn '-') hfile
  simp only [splitOn_folderName, splitOn_fileName, cons.injEq, true_and] at hfolder hfile
  obtain ⟨hparties, hring, -⟩ := hfolder
  obtain ⟨hkind, -, hme, howner⟩ := hfile
  refine ⟨toDigits_injective hparties, RingName.name_injective (String.toList_inj.mp hring),
    DataKind.eq_of_name (String.toList_inj.mp hkind) ?_, toDigits_injective hme⟩
  simpa using congrArg head? (map_injective_iff.mpr toDigits_injective howner)

/-- **Different data have different paths.**  In any folder, the path of a file tells the number of
parties, the ring, the kind with the owner of input masks, and the party.  Already the names that
a path goes by tell them, so no two paths lead to one file by blank parts or repeated slashes. -/
theorem path_injective (folder : String) (parties parties' : Nat) (r r' : RingName)
    (kind kind' : DataKind) (me me' : Nat) :
    (path r.Carrier folder parties kind me = path r'.Carrier folder parties' kind' me' ↔
      parties = parties' ∧ r = r' ∧ kind = kind' ∧ me = me') ∧
    ((Place.ofText (path r.Carrier folder parties kind me)).names
        = (Place.ofText (path r'.Carrier folder parties' kind' me')).names ↔
      parties = parties' ∧ r = r' ∧ kind = kind' ∧ me = me') := by
  have hnames : (Place.ofText (path r.Carrier folder parties kind me)).names
      = (Place.ofText (path r'.Carrier folder parties' kind' me')).names →
      parties = parties' ∧ r = r' ∧ kind = kind' ∧ me = me' := by
    rw [names_path, names_path]
    intro h
    have hlast := append_cancel_left h
    simp only [cons.injEq, and_true] at hlast
    exact eq_of_names hlast.1 hlast.2
  refine ⟨⟨fun h => hnames (congrArg (fun text => (Place.ofText text).names) h), ?_⟩, hnames, ?_⟩
  · rintro ⟨rfl, rfl, rfl, rfl⟩
    rfl
  · rintro ⟨rfl, rfl, rfl, rfl⟩
    rfl

end PrepFile

end Beaver
