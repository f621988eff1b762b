import Beaver.BitString
import Beaver.Session

/-!
# Choices and seeds

Base transfers take choice bits and give seeds, which are used as random streams.
-/

namespace Beaver.Transfer

/-- Random choice bits. -/
def drawChoices {σ : Type} (n : Nat) : Session σ BitString := do
  let bytes ← Session.draw (BitString.bytesFor n)
  pure (BitString.clearPadding ⟨bytes, n⟩)

/-- The streams that come out of base transfers with a peer. -/
structure Seeds where
  /-- Both streams of the transfers in which this party was the sender. -/
  sent : List (Keystream × Keystream)
  /-- The chosen stream of those in which it was the receiver. -/
  received : List Keystream
  /-- Its choices in them. -/
  choices : BitString

/-- Random pairs of keys, as base transfers would make them. -/
def dealPairs : Nat → Keystream → List (Block × Block) × Keystream
  | 0, s => ([], s)
  | n + 1, s =>
    let (k0, s) := s.block
    let (k1, s) := s.block
    let (rest, s) := dealPairs n s
    ((k0, k1) :: rest, s)

/-- The keys that a receiver gets for its choices; a missing choice is for the
first key. -/
def chosenKeys {α : Type} (pairs : List (α × α)) (choices : List Bool) : List α :=
  pairs.zipIdx.map fun ((k0, k1), i) => if (choices[i]?).getD false then k1 else k0

/-- Both streams of each pair of keys. -/
def pairStreams (pairs : List (Block × Block)) : List (Keystream × Keystream) :=
  pairs.map fun (k0, k1) => (.ofSeed k0, .ofSeed k1)

/-- The seeds of a party that sent one list of pairs and chose from another. -/
def Seeds.ofPairs (sent received : List (Block × Block)) (choices : BitString) : Seeds where
  sent := pairStreams sent
  received := (chosenKeys received choices.bits).map .ofSeed
  choices := choices

/-- Whether what one party received is what the other sent for its choices, as far
as the first blocks of the streams show. -/
def Seeds.matches (sender receiver : Seeds) : Bool :=
  let chosen := (sender.sent.zip receiver.choices.bits).map fun ((s0, s1), c) => if c then s1 else s0
  chosen.map (·.block.1) == receiver.received.map (·.block.1)

end Beaver.Transfer
