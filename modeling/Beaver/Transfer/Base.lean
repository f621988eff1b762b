import Beaver.Cipher.Digest
import Beaver.Session
import Beaver.Transfer.Group
import Beaver.Transfer.Seeds

/-!
# Base transfers

A batch of random transfers between two parties.  The sender publishes a multiple
`S` of the generator by a secret factor `y`; for each transfer the receiver answers
with `R`, a multiple of the generator by a secret `x`, plus `S` if its choice bit is
set.  The receiver's block is the digest of `x S`; the sender's are the digests of
`y R` and of `y R` less `y S`, and one of them is the same.
-/

namespace Beaver.Transfer

/-- The directions in which a party takes part. -/
inductive Role where
  | sender
  | receiver
  | both
  deriving DecidableEq

/-- Whether a party sends. -/
def Role.sends : Role → Bool
  | sender | both => true
  | receiver => false

/-- Whether a party receives. -/
def Role.receives : Role → Bool
  | receiver | both => true
  | sender => false

/-- Separates the digests of base transfers from all others. -/
def baseKey : Digest.Chain where
  low := ⟨0x0d900b03, 0x9b170ad7, 0x993257f7, 0x623652c5⟩
  high := ⟨0x5698c67b, 0x44630c81, 0xe3c9cb68, 0x2a5cf242⟩

/-- The block that an encoded group element stands for in one transfer between a
sender and a receiver. -/
def elementBlock (sender receiver index : Nat) (encoded : Bytes) : Block :=
  let material := [sender, receiver, index].flatMap Wire.count.encode ++ encoded
  Block.ofBytes ((Digest.hashFor baseKey material).take 16)

/-- A batch of base transfers with one peer. -/
structure Base where
  role : Role
  choices : BitString
  /-- Both blocks of every transfer that was sent. -/
  sent : List (Block × Block)
  /-- The chosen block of every transfer that was received. -/
  received : List Block
  executed : Bool

namespace Base

variable {σ : Type}

/-- Transfers with the given choice bits. -/
def ofChoices (role : Role) (choices : BitString) : Base :=
  ⟨role, choices, [], [], false⟩

/-- Transfers with random choice bits. -/
def ofCount (role : Role) (n : Nat) : Session σ Base := do
  let choices ← drawChoices n
  pure (ofChoices role choices)

/-- The number of transfers. -/
def count (b : Base) : Nat := b.choices.length

/-- Transfers with the same parameters and new random choices. -/
def fresh (b : Base) : Session σ Base :=
  ofCount b.role b.count

/-- A random factor. -/
def drawFactor (g : Group) : Session σ Nat := do
  let bs ← Session.draw 64
  pure (g.factor bs)

/-- Random factors. -/
def drawFactors (g : Group) : Nat → Session σ (List Nat)
  | 0 => pure []
  | n + 1 => do
      let x ← drawFactor g
      let xs ← drawFactors g n
      pure (x :: xs)

/-- The group element with a received encoding. -/
def decode (g : Group) (bs : Bytes) : Except Error g.Element :=
  match g.decode? bs with
  | some p => .ok p
  | none => .error .transfer

/-- The sender's blocks for a received `R`. -/
def blocksSent (g : Group) (l : LinkEnd) (y : Nat) (ys r : g.Element) (i : Nat) : Block × Block :=
  let yr := g.scale y r
  (elementBlock l.me l.peer i (g.encode yr), elementBlock l.me l.peer i (g.encode (g.sub yr ys)))

/-- Sends `n` transfers. -/
def send (g : Group) (l : LinkEnd) (n : Nat) : Session σ (List (Block × Block)) := do
  let y ← drawFactor g
  let s := g.multiple g.generator y
  l.send (Wire.bytes 32) (g.encode s)
  let answers ← l.recvList "CO_OT_r" (Wire.bytes 32) n
  let rs ← Session.check (answers.mapM (decode g))
  let ys := g.scale y s
  pure (rs.zipIdx.map fun (r, i) => blocksSent g l y ys r i)

/-- The answer `R` for a choice bit and a factor. -/
def answer (g : Group) (s : g.Element) (choice : Bool) (x : Nat) : g.Element :=
  let r := g.multiple g.generator x
  if choice then g.add r s else r

/-- Receives one transfer for each choice bit. -/
def receive (g : Group) (l : LinkEnd) (choices : List Bool) : Session σ (List Block) := do
  let bs ← l.recv "CO_OT_s" (Wire.bytes 32)
  let s ← Session.check (decode g bs)
  let table := g.table s
  let xs ← drawFactors g choices.length
  l.send (Wire.bytes 32).list ((choices.zip xs).map fun (c, x) => g.encode (answer g s c x))
  pure (xs.zipIdx.map fun (x, i) => elementBlock l.peer l.me i (g.encode (g.multiple table x)))

/-- Runs one direction, if the party takes part in it. -/
def direction (g : Group) (l : LinkEnd) (sending : Bool) : Session Base Unit := do
  let b ← get
  if sending && b.role.sends then
    let sent ← send g l b.count
    modify ({ · with sent })
  else if !sending && b.role.receives then
    let received ← receive g l b.choices.bits
    modify ({ · with received })

/-- Runs the transfers once.  In both directions, the lower party sends first. -/
def execute (g : Group) (l : LinkEnd) (regenerate : Bool) : Session Base Unit := do
  let b ← get
  if b.executed then Session.fail (.misuse .secondTransfer)
  if regenerate then
    let choices ← drawChoices b.count
    modify ({ · with choices })
  let sendFirst := decide (l.me < l.peer) || !b.role.receives
  direction g l sendFirst
  direction g l (!sendFirst)
  modify ({ · with executed := true })

/-- The streams of the transferred blocks. -/
def seeds (b : Base) : Except Error Seeds :=
  if b.executed then
    .ok ⟨b.sent.map fun (k0, k1) => (.ofSeed k0, .ofSeed k1), b.received.map .ofSeed, b.choices⟩
  else .error (.misuse .noTransfer)

/-- The transfers of one direction in which the two blocks are equal or the receiver
has not got the chosen one; undefined if a side has no blocks. -/
def wrong? (sender receiver : Base) : Option (List Nat) :=
  if sender.sent.isEmpty || receiver.received.isEmpty then none
  else
    let all := (sender.sent.zip (receiver.received.zip receiver.choices.bits)).zipIdx
    some ((all.filter fun (((k0, k1), k, c), _) => k0 == k1 || k != if c then k1 else k0).map (·.2))

end Base

end Beaver.Transfer
