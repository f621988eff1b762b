import Beaver.Transfer.Extension
import Beaver.Transfer.Seeds

/-!
# Receiving extended transfers

The receiver gets one of two random blocks for each of its choice bits.
-/

namespace Beaver.Transfer

/-- The receiving end of extended transfers. -/
structure Receiver where
  passive : Bool
  /-- The streams of the two seeds of every base transfer. -/
  zeros : List Keystream
  ones : List Keystream
  phase : Phase
  /-- The tweak of the next transfer. -/
  counter : Nat
  /-- The size of the batch. -/
  size : Nat
  /-- The choice bits of the batch with its padding. -/
  choices : BitString
  matrix : BitMatrix
  /-- The expansion of the second seeds. -/
  mask : BitMatrix

namespace Receiver

/-- The receiver with the seeds of 128 base transfers. -/
def ofSeeds (seeds : List (Keystream × Keystream)) (passive : Bool) : Except Error Receiver := do
  checkLength 128 seeds.length
  .ok ⟨passive, seeds.map (·.1), seeds.map (·.2), .expand, 0, 0, .empty, .empty, .empty⟩

/-- Goes to the next phase. -/
def advance (now next : Phase) : Session Receiver Unit := do
  if (← get).phase = now then modify ({ · with phase := next })
  else Session.fail (.misuse .receiverOrder)

/-- Expands the seeds to a batch of `n` transfers. -/
def expand (n : Nat) : Session Receiver Unit := do
  advance .expand .correlate
  let rows ← Session.total (extendedLength? n)
  modify ({ · with size := n })
  let blank ← Session.total (BitMatrix.zeros? rows)
  let (matrix, zeros) ← Session.check (blank.expand (← get).zeros)
  modify ({ · with matrix, zeros })
  let (mask, ones) ← Session.check (blank.expand (← get).ones)
  modify ({ · with mask, ones })

/-- The choice bits with random padding. -/
def pad (choices : BitString) : Session Receiver BitString := do
  let s ← get
  if s.matrix.height < s.size then throw .fault
  let padding ← drawChoices (s.matrix.height - s.size)
  match choices.append padding with
  | (padded, none) => pure padded
  | (_, some failure) => throw failure

/-- Sends the correction that ties the columns to the padded choice bits. -/
def tie (l : LinkEnd) (padded : BitString) : Session Receiver Unit := do
  let mask := (← get).mask
  modify ({ · with mask := .empty })
  let u ← Session.check (mask.xor (← get).matrix)
  let u ← Session.check (u.xorChoices padded)
  modify ({ · with choices := padded })
  l.send BitMatrix.wire u

/-- Pads the choice bits and ties the columns to them. -/
def correlate (l : LinkEnd) (choices : BitString) : Session Receiver Unit := do
  Session.check (checkLength (← get).size choices.length)
  advance .correlate .transpose
  let padded ← pad choices
  tie l padded

/-- Turns the matrix so that row `l` belongs to transfer `l`. -/
def transpose : Session Receiver Unit := do
  advance .transpose .check
  modify fun s => { s with matrix := s.matrix.transpose }

/-- Shows that all columns were tied to the same choice bits. -/
def check (l : LinkEnd) : Session Receiver Unit := do
  advance .check .hash
  let s ← get
  if s.passive then pure ()
  else
    let chi ← challenges l s.matrix.height
    let x := combineChoices s.choices.bits chi
    let t := combineRows s.matrix.rows chi
    l.send answerWire (x, t.1, t.2)

/-- Hashes the rows of the batch. -/
def hash : Session Receiver (List Block) := do
  advance .hash .expand
  let s ← get
  if s.matrix.height < s.size then throw .fault
  let out := TweakedHash.hashFrom s.counter (s.matrix.rows.take s.size)
  modify ({ · with counter := s.counter + s.matrix.height, matrix := .empty })
  pure out

/-- Receives one block for each choice bit. -/
def receive (l : LinkEnd) (choices : BitString) : Session Receiver (List Block) := do
  expand choices.length
  correlate l choices
  transpose
  check l
  hash

end Receiver

end Beaver.Transfer
