import Beaver.BitMatrix
import Beaver.Block.Polynomial
import Beaver.Cipher.TweakedHash
import Beaver.CoinToss

/-!
# Extending oblivious transfers

A few base transfers are stretched to any number of random ones.  The *receiver*
of the extended transfers knows both seeds of every base transfer, the *sender*
one of each, chosen by the bits of its `delta`.  Both expand their seeds to
matrices with one column a base transfer; the receiver sends the correction that
makes the columns agree on its choice bits, so that after transposing row `l` of
the sender is row `l` of the receiver, plus `delta` where choice bit `l` is set.

A batch goes through its phases in order.  It is padded for the correlation check,
which compares random combinations of the rows.
-/

namespace Beaver.Transfer

/-- The phases of a batch. -/
inductive Phase where
  | expand
  | correlate
  | transpose
  | check
  | hash
  deriving DecidableEq

/-- How many transfers are spent on the check. -/
def checkPadding : Nat := 256

/-- The number of transfers that are extended for a batch of `n`, as far as the
machine word reaches. -/
def extendedLength? (n : Nat) : Option Nat :=
  let total := (n + 127) / 128 * 128 + checkPadding
  if total < Nat.pow 2 64 then some total else none

/-- The challenges of the check, one a row, tossed by both ends. -/
def challenges {σ : Type} (l : LinkEnd) (n : Nat) : Session σ (List Block) := do
  let coins ← CoinToss.pairwise l
  let (seed, _) := coins.takeBytes 16
  pure ((Keystream.ofSeed (Block.ofBytes seed)).blocks n).1

/-- The sum of two products that are not yet reduced. -/
def addWide (a b : Block × Block) : Block × Block :=
  (a.1 ^^^ b.1, a.2 ^^^ b.2)

/-- The sum of the products of rows with challenges. -/
def combineRows (rows challenges : List Block) : Block × Block :=
  (rows.zip challenges).foldl (fun acc (row, chi) => addWide acc (row.clmul chi)) (.zero, .zero)

/-- The sum of the challenges whose bit is set. -/
def combineChoices (choices : List Bool) (challenges : List Block) : Block :=
  (choices.zip challenges).foldl (fun acc (c, chi) => acc ^^^ chi.scale c) .zero

/-- The answer to the challenges: the combined choices and the two halves of the
combined rows. -/
def answerWire : Wire (Block × Block × Block) :=
  Wire.block.pair (Wire.block.pair Wire.block)

end Beaver.Transfer
