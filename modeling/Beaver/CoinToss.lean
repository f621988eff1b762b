import Beaver.Player
import Beaver.Random.CoinStream

/-!
# Commitments and coin tossing

A party commits to a value by the digest of the value, a random salt and its own
index, and opens it by showing value and salt.  When all parties commit to random
seeds before any of them is opened, nobody can choose what the seeds add up to.
-/

namespace Beaver.CoinToss

variable {σ α : Type}

/-- What a party commits to: the encoded value, the salt and the low 16 bits of its
index, the higher byte first. -/
def committed (value salt : Bytes) (party : Nat) : Bytes :=
  value ++ salt ++ [UInt8.ofNat (party / 256), UInt8.ofNat party]

/-- The commitment to a value. -/
def commit (value salt : Bytes) (party : Nat) : Bytes :=
  Digest.hash (committed value salt party)

/-- Whether every other party has opened what it committed to. -/
def honored (w : Wire α) (me : Nat) (commitments : List Bytes) (openings : List (α × Bytes)) :
    Bool :=
  (commitments.zip openings).zipIdx.all fun ((c, v, s), k) =>
    k == me || commit (w.encode v) s k == c

/-- Every party commits to a value, then all values are opened. -/
def commitAndOpen (p : Player) (phase : String) (w : Wire α) (value : α) :
    Session σ (List α) := do
  let salt ← Session.draw 32
  let commitment := commit (w.encode value) salt p.me
  let commitments ← p.broadcast (phase ++ " commitment") (Wire.bytes 32) commitment
  let openings ← p.gather (phase ++ " opening") (w.pair (Wire.bytes 32)) (value, salt)
  if honored w p.me commitments openings then pure (openings.map (·.1))
  else Session.fail (.cheat .commitment)

/-- The sum of seeds. -/
def join (seeds : List Bytes) : Bytes :=
  seeds.foldl Bytes.xor (List.replicate 32 0)

/-- A random stream that all parties have tossed together. -/
def shared (p : Player) : Session σ CoinStream := do
  let seed ← Session.draw 32
  let seeds ← commitAndOpen p "coin toss" (Wire.bytes 32) seed
  pure (CoinStream.ofSeed (join seeds))

/-- A random stream that the two ends of a link have tossed together. -/
def pairwise (l : LinkEnd) : Session σ CoinStream := do
  let seed ← Session.draw 32
  let salt ← Session.draw 32
  let theirs ← l.exchange "pairwise coin toss commitment" (Wire.bytes 32) (commit seed salt l.me)
  let (theirSeed, theirSalt) ←
    l.exchange "pairwise coin toss opening" ((Wire.bytes 32).pair (Wire.bytes 32)) (seed, salt)
  if commit theirSeed theirSalt l.peer = theirs then
    pure (CoinStream.ofSeed (Bytes.xor seed theirSeed))
  else Session.fail (.cheat .commitment)

end Beaver.CoinToss
