import Beaver.CoinToss
import Beaver.Row

/-!
# Products with a secret key

Vector oblivious linear evaluation: one party holds a key, the other one inputs,
and they get random vectors that add up to the key times the inputs.  For each bit
of the key there is a transfer of random seeds; the input holder knows both, the
key holder the one that the bit selects.  Expanding the seeds to rows and
correcting the rows by the inputs gives a share of each power of two times its key
bit times the inputs.

Different inputs in different rows would leak bits of the key.  The consistency
check compares digests of random pairs of rows; for each pair there is one digest
for each combination of key bits, and the key holder can compute the one for its
own bits and the one for their complements.
-/

namespace Beaver.LinearEvaluation

open ShareRing

/-- Separates the digests of the check from all others. -/
def checkKey : Digest.Chain where
  low := ⟨0xbf1a4bc2, 0x3e2d2658, 0x967d4145, 0x3b0a72a0⟩
  high := ⟨0x3c3347f6, 0x62da6f95, 0xc234492c, 0xee871dec⟩

/-- The digest of a combination of two rows, for the given key bits. -/
def pairDigest {α : Type} [ShareRing α] (pair : Nat) (a b : Bool) (row : Row α) : Bytes :=
  Digest.hashFor checkKey
    (Wire.count.encode pair ++ Wire.flag.encode a ++ Wire.flag.encode b ++ row.packed)

/-- The combination of two rows for the given key bits. -/
def combine {α : Type} [ShareRing α] (a b : Bool) (x y : Row α) : Row α :=
  if a = b then x.minus y else x.plus y

/-- The digests of a pair, by the two key bits. -/
structure PairDigests where
  d00 : Bytes
  d01 : Bytes
  d10 : Bytes
  d11 : Bytes

namespace PairDigests

/-- The digest for the given key bits. -/
def get (d : PairDigests) : Bool → Bool → Bytes
  | false, false => d.d00
  | false, true => d.d01
  | true, false => d.d10
  | true, true => d.d11

/-- The digests that a function gives. -/
def ofFn (f : Bool → Bool → Bytes) : PairDigests :=
  ⟨f false false, f false true, f true false, f true true⟩

/-- Whether no two digests are equal. -/
def distinct (d : PairDigests) : Bool :=
  decide [d.d00, d.d01, d.d10, d.d11].Nodup

/-- The encoding in messages. -/
def wire : Wire PairDigests :=
  let w := (Wire.bytes 32).pair (Wire.bytes 32)
  (w.pair w).map (fun p => ⟨p.1.1, p.1.2, p.2.1, p.2.2⟩)
    (fun d => ((d.d00, d.d01), (d.d10, d.d11)))

end PairDigests

/-- Draws pairs of different rows. -/
def drawPairs (rows : Nat) : Nat → CoinStream → List (Nat × Nat)
  | 0, _ => []
  | n + 1, s =>
    let (first, s) := s.below rows
    let (distance, s) := s.below (rows - 1)
    (first, (first + (1 + distance)) % rows) :: drawPairs rows n s

/-- The pairs of rows that are compared, tossed by both ends; one for each row. -/
def challengePairs {σ : Type} (l : LinkEnd) (rows : Nat) : Session σ (List (Nat × Nat)) := do
  if rows < 2 then Session.fail (.config (.columns rows))
  let coins ← CoinToss.pairwise l
  pure (drawPairs rows rows coins)

/-- The number of pairs that are compared. -/
def challengeCount (α : Type) [ShareRing α] : Nat := bits α

/-- The sum of the rows times their powers of two. -/
def powerSum {α : Type} [ShareRing α] (n : Nat) (rows : List (Row α)) : Row α :=
  rows.zipIdx.foldl (fun acc (row, j) => .addMultiple (basis j) acc row) (.zeros n)

end Beaver.LinearEvaluation
