import Beaver.Cipher.ChaCha
import Beaver.Random.Words

/-!
# The stream of a coin toss

The seed that the parties toss together is expanded by ChaCha, four blocks to a
refill.
-/

namespace Beaver

/-- The key with the counter of the next block. -/
structure CoinGenerator where
  keyLow : Quad
  keyHigh : Quad
  counter : UInt64

/-- The next four blocks. -/
instance : WordGenerator CoinGenerator where
  refill g :=
    let block i := ChaCha.block g.keyLow g.keyHigh (g.counter + i)
    (block 0 ++ block 1 ++ block 2 ++ block 3, { g with counter := g.counter + 4 })

/-- The random stream of a coin toss. -/
abbrev CoinStream := WordBuffer CoinGenerator

/-- The stream of a seed of 32 bytes. -/
def CoinStream.ofSeed (seed : Bytes) : CoinStream :=
  match wordsOfBytes seed with
  | [k0, k1, k2, k3, k4, k5, k6, k7] =>
    .ofGenerator ⟨⟨k0, k1, k2, k3⟩, ⟨k4, k5, k6, k7⟩, 0⟩
  | _ => .ofGenerator ⟨⟨0, 0, 0, 0⟩, ⟨0, 0, 0, 0⟩, 0⟩

end Beaver
