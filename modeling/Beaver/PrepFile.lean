import Beaver.Batches
import Beaver.Config
import Beaver.PrepFile.Disk
import Beaver.PrepFile.Intake
import Beaver.PrepFile.Path
import Beaver.Share

/-!
# Preprocessing data in files

A file starts with the signature of its items, a length and then a text; the packed
items follow.  Both writing and reading go through a buffer: what has been written
is in the file at the latest when the writer finishes, and what has been buffered
for reading is not read again.
-/

namespace Beaver

/-- Writes items of one type to a file. -/
structure PrepWriter where
  path : String
  /-- Where the file is. -/
  place : Location
  /-- Where in the file the buffer goes. -/
  offset : Nat
  buffer : Bytes
  /-- How many items were written. -/
  written : Nat

/-- Steps with files. -/
abbrev Storing := ExceptT Error (StateM Disk)

/-- A step on the disk; its fault becomes an error. -/
def Storing.ofFiling {α : Type} (f : Filing α) : Storing α :=
  ExceptT.mk do
    match ← f.run with
    | .ok a => pure (.ok a)
    | .error e => pure (.error (.system e))

namespace PrepWriter

variable {δ : Type}

/-- Puts bytes into the file behind those already there. -/
def emit (w : PrepWriter) (bs : Bytes) : StateM Disk PrepWriter := do
  modify fun d => d.writeAt w.place w.offset bs
  pure { w with offset := w.offset + bs.length }

/-- Empties the buffer into the file. -/
def flush (w : PrepWriter) : StateM Disk PrepWriter := do
  let w ← w.emit w.buffer
  pure { w with buffer := [] }

/-- Writes bytes: into the buffer if they fit, else behind it. -/
def push (w : PrepWriter) (bs : Bytes) : StateM Disk PrepWriter := do
  let w ← if bufferSize < w.buffer.length + bs.length then w.flush else pure w
  if bufferSize ≤ bs.length then w.emit bs else pure { w with buffer := w.buffer ++ bs }

/-- What a file of items starts with. -/
def header (δ : Type) [Stored δ] : Bytes :=
  Wire.text.encode (Stored.signature δ)

/-- Makes a new file for items. -/
def create (δ : Type) [Stored δ] (path : String) : Storing PrepWriter := do
  let place ← Storing.ofFiling (Disk.makeFile (Place.ofText path))
  let w ← (PrepWriter.mk path place 0 [] 0).push (header δ)
  pure w

/-- Appends items. -/
def write [Stored δ] (w : PrepWriter) (items : List δ) : StateM Disk PrepWriter := do
  let w ← w.push (items.flatMap Stored.pack)
  pure { w with written := w.written + items.length }

/-- Completes the file and returns its path. -/
def finish (w : PrepWriter) : StateM Disk String := do
  let w ← w.flush
  pure w.path

end PrepWriter

/-- Reads items of one type from a file. -/
structure PrepReader where
  path : String
  /-- Where the file is. -/
  place : Location
  /-- Where in the file the buffer was read up to. -/
  offset : Nat
  buffer : Bytes

namespace PrepReader

variable {δ : Type}

/-- Reads up to `n` bytes.  What is missing in the buffer is read from the file, and
the buffer is filled again as far as the pieces of the read ask for it. -/
def pull (r : PrepReader) (d : Disk) (n : Nat) : Except Error (Bytes × PrepReader) := do
  if n ≤ r.buffer.length then .ok (r.buffer.take n, { r with buffer := r.buffer.drop n })
  else
    let contents ← (d.read r.place).mapError .system
    let missing := n - r.buffer.length
    let loaded := (contents.drop r.offset).take (missing + Intake.ahead r.buffer.length n)
    let available := r.buffer ++ loaded
    .ok (available.take n,
      { r with offset := r.offset + loaded.length, buffer := available.drop n })

/-- Reads exactly `n` bytes. -/
def pullExact (r : PrepReader) (d : Disk) (n : Nat) : Except Error (Bytes × PrepReader) := do
  let (bs, r) ← r.pull d n
  if bs.length = n then .ok (bs, r) else .error (.system .unexpectedEnd)

/-- Longer signatures are not read. -/
def maxSignature : Nat := 1024

/-- Opens a file that holds items of the given type. -/
def openFile (δ : Type) [Stored δ] (d : Disk) (path : String) : Except Error PrepReader := do
  let place ← (d.locate (Place.ofText path)).mapError .system
  let (front, r) ← (PrepReader.mk path place 0 []).pullExact d 8
  let n := Bytes.toNatLE front
  let (found, r) ←
    if maxSignature < n then .ok (s!"<header of {n} bytes>", r)
    else do
      let (bs, r) ← r.pullExact d n
      .ok (String.ofList (Utf8.lossy bs), r)
  if found = Stored.signature δ then .ok r
  else .error (.signature path (Stored.signature δ) found)

/-- Reads the next `n` items.  What was read is gone, also when the file runs out or
an item cannot be decoded. -/
def read [Stored δ] (r : PrepReader) (d : Disk) (n : Nat) : Except Error (List δ) × PrepReader :=
  let size := n * Stored.size δ
  if Nat.pow 2 64 ≤ size then (.error (.exhausted r.path), r)
  else
    match r.pull d size with
    | .error e => (.error e, r)
    | .ok (bs, r) =>
      if bs.length < size then (.error (.exhausted r.path), r)
      else ((batches (Stored.size δ) bs).mapM Stored.unpack, r)

end PrepReader

/-- Writes the items to the file of their kind, unless nothing is to be stored.
Returns the path of the file. -/
def PrepFile.store (α : Type) {δ : Type} [ShareRing α] [Stored δ] (c : Config) (kind : DataKind)
    (items : List δ) : Storing (Option String) := do
  match c.directory with
  | none => pure none
  | some folder =>
    let w ← PrepWriter.create δ (PrepFile.path α folder c.parties kind c.me)
    let w ← w.write items
    let path ← w.finish
    pure (some path)

end Beaver
