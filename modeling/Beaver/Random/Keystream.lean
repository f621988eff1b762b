import Beaver.Cipher.Aes
import Beaver.Random.Words

/-!
# The AES keystream

Every seed of a transfer is expanded by encrypting a counter under it.  Words are
served from a buffer that is refilled `width` blocks at a time; whole blocks are
encrypted straight from the counter and pass the buffer by.  Both draw on the same
counter, so no counter is ever encrypted twice.
-/

namespace Beaver

/-- A key schedule with the next counter to encrypt. -/
structure CounterCipher where
  schedule : Aes.Schedule
  width : Nat
  counter : Nat

namespace CounterCipher

/-- The encryption of the next counter. -/
def next (c : CounterCipher) : Block × CounterCipher :=
  (Aes.encrypt c.schedule (Block.ofNat c.counter), { c with counter := c.counter + 1 })

/-- The encryptions of the next `n` counters. -/
def blocks (n : Nat) (c : CounterCipher) : List Block × CounterCipher :=
  ((List.range n).map fun i => Aes.encrypt c.schedule (Block.ofNat (c.counter + i)),
    { c with counter := c.counter + n })

instance : WordGenerator CounterCipher where
  refill c :=
    let (bs, c) := c.blocks c.width
    (bs.flatMap Block.words, c)

end CounterCipher

/-- The random stream of a seed. -/
abbrev Keystream := WordBuffer CounterCipher

namespace Keystream

/-- The stream of a seed whose buffer holds `width` blocks. -/
def ofSeedWith (width : Nat) (seed : Block) : Keystream :=
  .ofGenerator ⟨Aes.Schedule.ofKey seed, width, 0⟩

/-- The stream of a seed.  The buffer holds nine blocks. -/
def ofSeed (seed : Block) : Keystream :=
  ofSeedWith 9 seed

/-- The next `n` whole blocks, past the buffer. -/
def blocks (n : Nat) (s : Keystream) : List Block × Keystream :=
  let (bs, g) := s.generator.blocks n
  (bs, { s with generator := g })

/-- The next whole block, past the buffer. -/
def block (s : Keystream) : Block × Keystream :=
  let (b, g) := s.generator.next
  (b, { s with generator := g })

/-- The next `n` bytes: as many whole blocks as fit, the rest from the buffer. -/
def fill (n : Nat) (s : Keystream) : Bytes × Keystream :=
  let (bs, s) := s.blocks (n / 16)
  let (rest, s) := s.takeBytes (n % 16)
  (bs.flatMap Block.toBytes ++ rest, s)

@[simp]
theorem length_blocks (n : Nat) (s : Keystream) : (s.blocks n).1.length = n := by
  simp [blocks, CounterCipher.blocks]

@[simp]
theorem length_fill (n : Nat) (s : Keystream) : (s.fill n).1.length = n := by
  have hblocks : ∀ bs : List Block, (bs.flatMap Block.toBytes).length = 16 * bs.length := by
    intro bs
    induction bs with
    | nil => rfl
    | cons b bs ih => rw [List.flatMap_cons, List.length_append, ih]; simp; omega
  simp only [fill, List.length_append, hblocks, length_blocks, WordBuffer.length_takeBytes]
  omega

/-- Passes the next `n` bytes over. -/
def skip (n : Nat) (s : Keystream) : Keystream :=
  let g := s.generator
  ({ s with generator := { g with counter := g.counter + n / 16 } }.takeBytes (n % 16)).2

end Keystream

end Beaver
