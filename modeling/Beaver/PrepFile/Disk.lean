import Beaver.Error
import Beaver.Bytes
import Beaver.PrepFile.Place

/-!
# Folders and files

A disk is a tree of folders with files at its leaves.  A path is followed part by
part: each part is looked up in the folder that the parts before it lead to, so the
first one that is missing, or that is a file, decides the outcome.  Two dots lead to
the folder above, which is only found below a folder that is there.
-/

namespace Beaver

/-- A file, or a folder of named entries. -/
inductive Entry where
  | file (contents : Bytes)
  | folder (entries : List (String × Entry))

namespace Entry

/-- The entry at the end of a list of names. -/
def find? : List String → Entry → Option Entry
  | [], e => some e
  | _ :: _, file _ => none
  | name :: names, folder entries => (entries.lookup name).bind (find? names)

/-- Puts an entry at the end of a list of names that leads through folders. -/
def insert (new : Entry) : List String → Entry → Entry
  | [], _ => new
  | _ :: _, file contents => file contents
  | name :: names, folder entries =>
    let below := insert new names ((entries.lookup name).getD (folder []))
    folder ((name, below) :: entries.filter (·.1 != name))

end Entry

/-- A place in the tree: the names that lead to it, the last one first. -/
abbrev Location := List String

/-- A tree of folders and files. -/
structure Disk where
  root : Entry
  /-- The folder where paths without a leading slash start. -/
  home : Location

/-- Steps that change a disk and may fail; what was changed before a failure stays. -/
abbrev Filing := ExceptT SystemFault (StateM Disk)

/-- A step that looks at the disk and does not change it. -/
def Filing.look {α : Type} (f : Disk → Except SystemFault α) : Filing α :=
  ExceptT.mk do
    pure (f (← get))

namespace Disk

/-- A disk on which the folder where paths start is empty. -/
def empty : Disk :=
  let home := ["preprocessing", "tmp"]
  ⟨Entry.insert (.folder []) home.reverse (.folder []), home⟩

/-- What is at a location. -/
def find? (d : Disk) (l : Location) : Option Entry :=
  d.root.find? l.reverse

/-- The disk with something new at a location. -/
def insert (d : Disk) (l : Location) (e : Entry) : Disk :=
  { d with root := e.insert l.reverse d.root }

/-- Where a path starts. -/
def start (d : Disk) (p : Place) : Location :=
  if p.isAbsolute then [] else d.home

/-- The longest name, in bytes. -/
def maxName : Nat := 255

/-- The longest path from the top of the tree, in bytes. -/
def maxPath : Nat := 4095

/-- The number of bytes of a path from the top of the tree. -/
def pathSize (d : Disk) (p : Place) : Nat :=
  if p.isAbsolute then p.size
  else d.home.foldl (fun n name => n + name.utf8ByteSize + 1) 1 + p.size

/-- Refuses paths that hold a null character or are too long, whatever they lead to. -/
def admissible (d : Disk) (p : Place) : Except SystemFault Unit :=
  if p.parts.any fun part => part.contains (Char.ofNat 0) then .error .invalidInput
  else if maxPath < d.pathSize p then .error .invalidName
  else .ok ()

/-- Follows one part of a path, from a folder that must be there.  Whether a name is
in the folder only matters to the next step. -/
def step (d : Disk) (l : Location) (part : String) : Except SystemFault Location :=
  match d.find? l with
  | none => .error .notFound
  | some (.file _) => .error .notDirectory
  | some (.folder _) =>
    if Place.isBlank part then .ok l
    else if part == ".." then .ok l.tail
    else if maxName < part.utf8ByteSize then .error .invalidName
    else .ok (part :: l)

/-- Follows the parts of a path. -/
def walk (d : Disk) (l : Location) (parts : List String) : Except SystemFault Location :=
  parts.foldlM d.step l

/-- The location that a path leads to; something must be there. -/
def locate (d : Disk) (p : Place) : Except SystemFault Location := do
  d.admissible p
  let l ← d.walk (d.start p) p.parts
  if (d.find? l).isSome then .ok l else .error .notFound

/-- The contents of the file at a location. -/
def read (d : Disk) (l : Location) : Except SystemFault Bytes :=
  match d.find? l with
  | none => .error .notFound
  | some (.folder _) => .error .isDirectory
  | some (.file bs) => .ok bs

/-- The contents of the file that a path leads to. -/
def contents (d : Disk) (p : Place) : Except SystemFault Bytes := do
  d.read (← d.locate p)

/-- Follows names and makes the folders that are missing.  A file in the way is not a
folder to look into, but once a folder had to be made, or at the end, it has the name
of a folder to be made; `making` tells whether one was made. -/
def makeFoldersBelow (making : Bool) (l : Location) : List String → Filing Unit
  | [] => pure ()
  | name :: names => do
      let below ← Filing.look (·.step l name)
      match (← get).find? below with
      | some (.folder _) => makeFoldersBelow making below names
      | some (.file _) =>
        throw (if making || names.isEmpty then .alreadyExists else .notDirectory)
      | none =>
        modify (·.insert below (.folder []))
        makeFoldersBelow true below names

/-- Makes the folders on a path that are missing. -/
def makeFolders (p : Place) : Filing Unit := do
  Filing.look (·.admissible p)
  makeFoldersBelow false ((← get).start p) p.names

/-- Where a file can be written that a path leads to.  The folder above it must be
there, and the path must end in a name that is not that of a folder. -/
def fileLocation (d : Disk) (p : Place) : Except SystemFault Location := do
  d.admissible p
  let parts := (p.parts.reverse.dropWhile (· == "")).reverse
  let above ← d.walk (d.start p) parts.dropLast
  let here ← d.step above "."
  match parts.getLast? with
  | none => .error .isDirectory
  | some last =>
    if last == "." || last == ".." || parts.length < p.parts.length then .error .isDirectory
    else do
      let l ← d.step here last
      match d.find? l with
      | some (.folder _) => .error .isDirectory
      | _ => .ok l

/-- Makes an empty file, in place of an older one, and the folders above it. -/
def makeFile (p : Place) : Filing Location := do
  makeFolders p.parent
  let l ← Filing.look (·.fileLocation p)
  modify (·.insert l (.file []))
  pure l

/-- Puts bytes into a file from an offset on; a gap before them is filled with
zeros.  Where no bytes are put nothing changes. -/
def writeAt (d : Disk) (l : Location) (offset : Nat) (bs : Bytes) : Disk :=
  match bs, d.find? l with
  | _ :: _, some (.file old) =>
    let front := old.take offset
    let gap := List.replicate (offset - old.length) 0
    d.insert l (.file (front ++ gap ++ bs ++ old.drop (offset + bs.length)))
  | _, _ => d

end Disk

end Beaver
