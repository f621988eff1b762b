/-!
# How a read goes through a buffer

Bytes come out of a buffer, which is filled as a whole when it is empty.  A read
whose end is not known beforehand asks for them in pieces: a small one at first, and
then as much as there is space for, where space that has become small is at least
doubled.  A piece that is not shorter than a buffer passes an empty buffer by.  What
is asked for arrives in any case; the pieces decide how much the buffer holds
afterwards.
-/

namespace Beaver

/-- The size of a buffer. -/
def bufferSize : Nat := 8192

/-- Where a read in pieces stands. -/
structure Intake where
  /-- How much has arrived. -/
  got : Nat
  /-- How much there is space for. -/
  space : Nat
  /-- How much the buffer holds. -/
  held : Nat

namespace Intake

/-- The piece that is asked for first; less space than that is made larger. -/
def firstPiece : Nat := 32

/-- The least space there is once something has arrived. -/
def leastSpace : Nat := 8

/-- Asks for a piece through a buffer that holds so much: how much arrives, and how
much the buffer holds then. -/
def fetch (held piece : Nat) : Nat × Nat :=
  if 0 < held then (min piece held, held - piece)
  else if bufferSize ≤ piece then (piece, 0)
  else (piece, bufferSize - piece)

/-- Starts a read of `n` bytes. -/
def start (held n : Nat) : Intake :=
  let (got, held) := fetch held (min firstPiece n)
  ⟨got, max leastSpace got, held⟩

/-- Makes space unless there is enough. -/
def widen (i : Intake) : Intake :=
  if i.got + firstPiece ≤ i.space then i
  else { i with space := max (2 * i.space) (i.got + firstPiece) }

/-- Asks for the next piece of a read of `n` bytes. -/
def advance (n : Nat) (i : Intake) : Intake :=
  let i := i.widen
  let (arrived, held) := fetch i.held (min (i.space - i.got) (n - i.got))
  { i with got := i.got + arrived, held }

/-- Asks for pieces until `n` bytes have arrived, at most `fuel` times. -/
def finish (n : Nat) : (fuel : Nat) → Intake → Intake
  | 0, i => i
  | fuel + 1, i => if n ≤ i.got then i else finish n fuel (i.advance n)

/-- How much a buffer that holds so much holds after a read of `n` bytes from a file
that does not end.  Each piece brings a byte, so `n` pieces are enough. -/
def ahead (held n : Nat) : Nat :=
  (finish n n (start held n)).held

end Intake

end Beaver
