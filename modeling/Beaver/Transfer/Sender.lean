import Beaver.Transfer.Extension

/-!
# Sending extended transfers

The sender gets two random blocks for each transfer, of which the receiver knows
the chosen one.
-/

namespace Beaver.Transfer

/-- The sending end of extended transfers. -/
structure Sender where
  passive : Bool
  /-- The difference of the two blocks of every transfer before they are hashed. -/
  delta : Block
  /-- The streams of the known seed of every base transfer. -/
  streams : List Keystream
  phase : Phase
  /-- The tweak of the next transfer. -/
  counter : Nat
  /-- The size of the batch. -/
  size : Nat
  matrix : BitMatrix

namespace Sender

/-- The sender with one seed of each of 128 base transfers, chosen by the bits of
`delta`. -/
def ofSeeds (delta : BitString) (seeds : List Keystream) (passive : Bool) : Except Error Sender := do
  checkLength 128 delta.length
  checkLength 128 seeds.length
  .ok ⟨passive, (delta.block? 0).getD .zero, seeds, .expand, 0, 0, .empty⟩

/-- Goes to the next phase. -/
def advance (now next : Phase) : Session Sender Unit := do
  if (← get).phase = now then modify ({ · with phase := next })
  else Session.fail (.misuse .senderOrder)

/-- Expands the seeds to a batch of `n` transfers. -/
def expand (n : Nat) : Session Sender Unit := do
  advance .expand .correlate
  modify ({ · with size := n })
  let rows ← Session.total (extendedLength? n)
  let blank ← Session.total (BitMatrix.zeros? rows)
  let (matrix, streams) ← Session.check (blank.expand (← get).streams)
  modify ({ · with matrix, streams })

/-- Applies the receiver's correction to the columns that `delta` selects. -/
def correlate (l : LinkEnd) : Session Sender Unit := do
  advance .correlate .transpose
  let u ← l.recv "KOS_u" BitMatrix.wire
  let s ← get
  Session.check (checkLength s.matrix.height u.height)
  let matrix ← Session.check (s.matrix.addWhere s.delta u)
  modify ({ · with matrix })

/-- Turns the matrix so that row `l` belongs to transfer `l`. -/
def transpose : Session Sender Unit := do
  advance .transpose .check
  modify fun s => { s with matrix := s.matrix.transpose }

/-- Checks that all columns were tied to the same choice bits. -/
def check (l : LinkEnd) : Session Sender Unit := do
  advance .check .hash
  let s ← get
  if s.passive then pure ()
  else
    let chi ← challenges l s.matrix.height
    let q := combineRows s.matrix.rows chi
    let (x, t) ← l.recv "KOS_check" answerWire
    if addWide q (x.clmul s.delta) = t then pure ()
    else Session.fail (.cheat .correlation)

/-- Hashes the rows of the batch, with and without `delta`. -/
def hash : Session Sender (List (Block × Block)) := do
  advance .hash .expand
  let s ← get
  if s.matrix.height < s.size then throw .fault
  let rows := s.matrix.rows.take s.size
  let k0 := TweakedHash.hashFrom s.counter rows
  let k1 := TweakedHash.hashFrom s.counter (rows.map (· ^^^ s.delta))
  modify ({ · with counter := s.counter + s.matrix.height, matrix := .empty })
  pure (k0.zip k1)

/-- Sends a batch of `n` transfers. -/
def send (l : LinkEnd) (n : Nat) : Session Sender (List (Block × Block)) := do
  expand n
  correlate l
  transpose
  check l
  hash

end Sender

end Beaver.Transfer
