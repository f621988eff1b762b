import Beaver.PrepFile
import Beaver.Share.Item

/-!
# Working with one file at a time

At a desk lie a disk and at most one file that is written and one that is read.
Items are given and shown as integers, by the type of the file they belong to.
-/

namespace Beaver

/-- A disk with a file open for writing and one for reading. -/
structure Desk where
  disk : Disk
  writer : Option (ItemType × PrepWriter)
  reader : Option (ItemType × PrepReader)

/-- What can go wrong at a desk. -/
inductive DeskFault where
  /-- No file is open. -/
  | noFile
  /-- Integers are not those of an item. -/
  | notItem
  | error (e : Error)

/-- Steps at a desk; what a step did before it failed stays done. -/
abbrev AtDesk := ExceptT DeskFault (StateM Desk)

namespace Desk

/-- Nothing on the disk and no file open. -/
def empty : Desk := ⟨.empty, none, none⟩

/-- A result that may be an error. -/
def check {α : Type} : Except Error α → AtDesk α
  | .ok a => pure a
  | .error e => throw (.error e)

/-- What is open, unless nothing is. -/
def opened {α : Type} : Option α → AtDesk α
  | some a => pure a
  | none => throw .noFile

/-- A step with files. -/
def storing {α : Type} (s : Storing α) : AtDesk α := do
  let (result, disk) := s.run (← get).disk
  modify ({ · with disk })
  check result

/-- The items with the given integers. -/
def items (t : ItemType) (numbers : List (List Nat)) : AtDesk (List t.Item) :=
  match numbers.mapM (ItemType.unflatten? t.kind) with
  | some xs => pure xs
  | none => throw .notItem

/-- Gives up the file that is being written; what is in its buffer goes to the disk. -/
def close (d : Desk) : Desk :=
  match d.writer with
  | some (_, w) => { d with disk := (w.flush d.disk).2, writer := none }
  | none => d

/-- Starts a new file.  A file that is still being written is given up before, also
when the new one cannot be made. -/
def create (t : ItemType) (path : String) : AtDesk Unit := do
  modify close
  let w ← storing (PrepWriter.create t.Item path)
  modify ({ · with writer := some (t, w) })

/-- Appends items to the file being written, and tells how many it has. -/
def write (numbers : List (List Nat)) : AtDesk Nat := do
  let (t, w) ← opened (← get).writer
  let xs ← items t numbers
  let w ← storing (w.write xs)
  modify ({ · with writer := some (t, w) })
  pure w.written

/-- Completes the file being written, and tells its path below the desk's folder. -/
def finish : AtDesk String := do
  let (_, w) ← opened (← get).writer
  let path ← storing w.finish
  modify ({ · with writer := none })
  pure (Place.ofText path).inner

/-- Opens a file for reading, in place of the one that was read. -/
def openFile (t : ItemType) (path : String) : AtDesk Unit := do
  modify ({ · with reader := none })
  let r ← check (PrepReader.openFile t.Item (← get).disk path)
  modify ({ · with reader := some (t, r) })

/-- Reads the next items. -/
def read (n : Nat) : AtDesk (List (List Nat)) := do
  let (t, r) ← opened (← get).reader
  let (xs, r) := r.read (δ := t.Item) (← get).disk n
  modify ({ · with reader := some (t, r) })
  let xs ← check xs
  pure (xs.map (ItemType.flatten t.kind))

/-- Stores items in the file of their kind, and tells its path like `finish`. -/
def store (t : ItemType) (c : Config) (kind : DataKind) (numbers : List (List Nat)) :
    AtDesk (Option String) := do
  let xs ← items t numbers
  let path ← storing (PrepFile.store t.Value c kind xs)
  pure (path.map fun path => (Place.ofText path).inner)

/-- Writes a file as a whole. -/
def overwrite (path : String) (bs : Bytes) : AtDesk Unit := do
  let place ← storing (Storing.ofFiling (Disk.makeFile (Place.ofText path)))
  modify fun d => { d with disk := d.disk.writeAt place 0 bs }

/-- The contents of a file. -/
def contents (path : String) : AtDesk Bytes := do
  check (((← get).disk.contents (Place.ofText path)).mapError .system)

end Desk

end Beaver
