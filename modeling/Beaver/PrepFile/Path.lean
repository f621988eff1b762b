import Beaver.Ring.Basic

/-!
# Where preprocessing data is kept

A file holds the data of one kind for one party.  Its path names the number of
parties, the ring, the kind, the party and, for input masks, their owner.
-/

namespace Beaver

/-- The kinds of preprocessing data. -/
inductive DataKind where
  | triples
  | squares
  | bits
  | inverses
  /-- Input masks of one owner. -/
  | inputs (owner : Nat)
  deriving DecidableEq

namespace DataKind

/-- The name of a kind. -/
def name : DataKind → String
  | triples => "Triples"
  | squares => "Squares"
  | bits => "Bits"
  | inverses => "Inverses"
  | inputs _ => "Inputs"

/-- What the name of a file ends with. -/
def suffix : DataKind → String
  | inputs owner => s!"-{owner}"
  | _ => ""

end DataKind

namespace PrepFile

/-- A name below a folder. -/
def below (folder name : String) : String :=
  if folder == "" || folder.endsWith "/" then folder ++ name else folder ++ "/" ++ name

/-- The path of the data of one kind of party `me` of `parties`. -/
def path (α : Type) [ShareRing α] (folder : String) (parties : Nat) (kind : DataKind) (me : Nat) :
    String :=
  let ring := ShareRing.name α
  let width := ShareRing.bits α
  let what := kind.name
  let owner := kind.suffix
  below (below folder s!"{parties}-{ring}-{width}") s!"{what}-{ring}-P{me}{owner}"

end PrepFile

end Beaver
