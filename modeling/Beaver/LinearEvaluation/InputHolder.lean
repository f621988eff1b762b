import Beaver.LinearEvaluation

/-!
# The holder of the inputs
-/

namespace Beaver.LinearEvaluation

open ShareRing

/-- The party with the inputs: the streams of both seeds for every key bit. -/
structure InputHolder where
  passive : Bool
  streams : List (Keystream × Keystream)

namespace InputHolder

variable {α : Type} [ShareRing α]

/-- The input holder with the outputs of one transfer for every bit of a key. -/
def ofSeeds (α : Type) [ShareRing α] (seeds : List (Block × Block)) (passive : Bool) :
    Except Error InputHolder := do
  checkLength (bits α) seeds.length
  .ok ⟨passive, seeds.map fun (k0, k1) => (.ofSeed k0, .ofSeed k1)⟩

/-- The next rows of `n` elements from both streams of every key bit. -/
def expandRows (n : Nat) : Session InputHolder (List (Row α × Row α)) := do
  let expanded := (← get).streams.map fun (s0, s1) => (Row.random n s0, Row.random n s1)
  modify ({ · with streams := expanded.map fun (p, q) => (p.2, q.2) })
  pure (expanded.map fun (p, q) => (p.1, q.1))

/-- The digests of pair `i`. -/
def digests (rows : List (Row α × Row α)) (i first second : Nat) : PairDigests :=
  let row (j : Nat) (c : Bool) : Row α :=
    ((rows[j]?).map fun r => if c then r.2 else r.1).getD ⟨[]⟩
  .ofFn fun a b => pairDigest i a b (combine a b (row first a) (row second b))

/-- This party's shares of the key times the inputs. -/
def evaluate (l : LinkEnd) (inputs : List α) : Session InputHolder (List α) := do
  let n := inputs.length
  let rows ← expandRows n
  let u := rows.map fun (t0, t1) => (t0.minus t1).add ⟨inputs⟩
  l.send (Row.wire α).list u
  let share := rows.zipIdx.foldl (fun acc (row, j) => Row.addMultiple (-basis j) acc row.1) (.zeros n)
  if (← get).passive then pure share.values
  else
    let pairs ← challengePairs l (bits α)
    let hashes := pairs.zipIdx.map fun ((first, second), i) => digests rows i first second
    l.send PairDigests.wire.list hashes
    pure share.values

end InputHolder

end Beaver.LinearEvaluation
