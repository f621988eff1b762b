import Beaver.Batches
import Beaver.Cipher.Aes

/-!
# Hashing blocks with a fixed cipher key

A block `x` with tweak `i` is hashed to `π (π x + i) + π x`, where `π` encrypts
under a key that everybody knows.  The sum keeps the cipher from being inverted,
and the tweak keeps equal blocks from having equal hashes.
-/

namespace Beaver.TweakedHash

/-- The public key. -/
def publicKey : Aes.Schedule :=
  .ofKey (.ofNat 0x5c3e91a70d24f6b843e17a90c2d51f68)

/-- How many blocks are encrypted side by side. -/
def width : Nat := 9

/-- The hash of one block. -/
def hashBlock (keys : Aes.Schedule) (tweak x : Block) : Block :=
  let y := Aes.encrypt keys x
  Aes.encrypt keys (y ^^^ tweak) ^^^ y

/-- The hashes of a few blocks side by side, the first of which has the given
index.  The encrypted blocks are kept in the front of a scratch space, which is
handed on with the hashes. -/
def hashGroup {m : Type → Type} [Monad m] (keys : Aes.Schedule) (tweak : Nat → m Block)
    (start : Nat) (scratch group : List Block) : m (List Block × List Block) := do
  let ys := List.zipWith (fun _ x => Aes.encrypt keys x) (scratch.take group.length) group
  let masked ← (ys.zipIdx start).mapM fun (y, i) => do
    let t ← tweak i
    pure (y ^^^ t)
  pure (List.zipWith (· ^^^ ·) (masked.map (Aes.encrypt keys)) ys, ys ++ scratch.drop group.length)

/-- The hashes of numbered groups of `w` blocks, one group after the other; only the
last one may be shorter. -/
def hashGroups {m : Type → Type} [Monad m] (keys : Aes.Schedule) (tweak : Nat → m Block) (w : Nat) :
    Nat → List Block → List (List Block) → m (List Block)
  | _, _, [] => pure []
  | number, scratch, group :: groups => do
      let (front, scratch) ← hashGroup keys tweak (number * w) scratch group
      let back ← hashGroups keys tweak w (number + 1) scratch groups
      pure (front ++ back)

/-- The hashes of a list of blocks, each with the tweak of its index, `w` side by side. -/
def hashListWith {m : Type → Type} [Monad m] (w : Nat) (keys : Aes.Schedule)
    (tweak : Nat → m Block) (xs : List Block) : m (List Block) :=
  hashGroups keys tweak w 0 (List.replicate w Block.zero) (batches w xs)

/-- The hashes of a list of blocks, each with the tweak of its index. -/
def hashList {m : Type → Type} [Monad m] (keys : Aes.Schedule) (tweak : Nat → m Block)
    (xs : List Block) : m (List Block) :=
  hashListWith width keys tweak xs

/-- The hashes of a list of blocks under the public key, with consecutive tweaks. -/
def hashFrom (first : Nat) (xs : List Block) : List Block :=
  Id.run (hashList publicKey (fun i => pure (Block.ofNat (first + i))) xs)

end Beaver.TweakedHash
