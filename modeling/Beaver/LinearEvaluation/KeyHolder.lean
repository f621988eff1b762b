import Beaver.LinearEvaluation

/-!
# The holder of the key
-/

namespace Beaver.LinearEvaluation

open ShareRing

/-- The party with the key: the stream of the chosen seed for every key bit. -/
structure KeyHolder (α : Type) where
  passive : Bool
  key : α
  streams : List Keystream

namespace KeyHolder

variable {α : Type} [ShareRing α]

/-- The key holder with the outputs of one transfer for every bit of the key. -/
def ofSeeds (key : α) (seeds : List Block) (passive : Bool) : Except Error (KeyHolder α) := do
  checkLength (bits α) seeds.length
  .ok ⟨passive, key, seeds.map .ofSeed⟩

/-- The next rows of `n` elements from the stream of every key bit. -/
def expandRows (n : Nat) : Session (KeyHolder α) (List (Row α)) := do
  let expanded ← Session.total ((← get).streams.mapM (Row.random? n))
  modify ({ · with streams := expanded.map (·.2) })
  pure (expanded.map (·.1))

/-- Whether the digests of pair `i` are all different and the two that the key holder
can compute are right. -/
def verifyPair (key : α) (rows u : List (Row α)) (i first second : Nat) (d : PairDigests) : Bool :=
  let row (xs : List (Row α)) (j : Nat) : Row α := (xs[j]?).getD ⟨[]⟩
  let a := bit key first
  let b := bit key second
  let known := combine a b (row rows first) (row rows second)
  let other :=
    if a then (known.sub (row u second)).add (row u first)
    else (known.add (row u second)).sub (row u first)
  d.distinct && pairDigest i a b known == d.get a b && pairDigest i (!a) (!b) other == d.get (!a) (!b)

/-- This party's shares of the key times the `n` inputs of the other. -/
def evaluate (l : LinkEnd) (n : Nat) : Session (KeyHolder α) (List α) := do
  let rows ← expandRows n
  let u ← l.recvList "VOLE_u" (Row.wire α) (bits α)
  u.forM fun row => Session.check (checkLength n row.values.length)
  let key := (← get).key
  let corrected := (rows.zip u).zipIdx.map fun ((t, u), j) => Row.addIf (bit key j) t u
  let share := powerSum n corrected
  if (← get).passive then pure share.values
  else
    let pairs ← challengePairs l (bits α)
    let digests ← l.recvList "VOLE_check" PairDigests.wire pairs.length
    let good := (pairs.zip digests).zipIdx.all fun (((first, second), d), i) =>
      verifyPair key rows u i first second d
    if good then pure share.values else Session.fail (.cheat .consistency)

end KeyHolder

end Beaver.LinearEvaluation
