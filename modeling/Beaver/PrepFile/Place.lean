/-!
# Paths as they are written

A path is kept as the texts between its slashes.  Empty parts and single dots mean
the folder they stand in; where they stand still matters, because a path with one at
its end can only mean a folder, and because a path may not be too long as it is
written.
-/

namespace Beaver

/-- A path: the texts between its slashes. -/
structure Place where
  parts : List String
  deriving DecidableEq

namespace Place

/-- The path that a text is. -/
def ofText (path : String) : Place :=
  ⟨(path.toList.splitOn '/').map String.ofList⟩

/-- Whether a part means the folder it stands in. -/
def isBlank (part : String) : Bool :=
  part == "" || part == "."

/-- Parts without the blank ones at their end. -/
def trimEnd (parts : List String) : List String :=
  (parts.reverse.dropWhile isBlank).reverse

/-- Whether the path starts with a slash. -/
def isAbsolute (p : Place) : Bool :=
  1 < p.parts.length && p.parts.head? == some ""

/-- The number of bytes of the path as it is written. -/
def size (p : Place) : Nat :=
  p.parts.foldl (fun n part => n + part.utf8ByteSize) (p.parts.length - 1)

/-- The parts that are not blank. -/
def names (p : Place) : List String :=
  p.parts.filter (!isBlank ·)

/-- The path without its last name and without blank parts before it. -/
def parent (p : Place) : Place :=
  ⟨trimEnd (trimEnd p.parts).dropLast⟩

/-- The text of the path without blank parts at its two ends. -/
def inner (p : Place) : String :=
  "/".intercalate (trimEnd (p.parts.dropWhile isBlank))

end Place

end Beaver
