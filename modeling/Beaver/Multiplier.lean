import Beaver.Batches
import Beaver.LinearEvaluation.InputHolder
import Beaver.LinearEvaluation.KeyHolder
import Beaver.Rectangle
import Beaver.Transfer.Receiver
import Beaver.Transfer.Seeds
import Beaver.Transfer.Sender

/-!
# Multiplying with one peer

A multiplier holds what a party shares with one peer: extended transfers in both
directions and, if values are authenticated, linear evaluations in both.  Its jobs
give the two parties shares of the products that involve both of them.

The product of one party's `a` and the other's `b` takes one transfer for each bit
of `b`: the pads of bit `j` are two random rows, the correction is their difference
plus `a`, and so the chosen row, corrected where the bit is set, is the first pad
plus `a` times the bit.

Where both directions are needed, the lower party is first the receiver of the
transfers or the holder of the inputs.
-/

namespace Beaver

open ShareRing

/-- The linear evaluations with one peer. -/
structure Authenticator (μ : Type) where
  input : LinearEvaluation.InputHolder
  key : LinearEvaluation.KeyHolder μ

/-- What a party shares with one peer. -/
structure Multiplier (μ : Type) where
  receiver : Transfer.Receiver
  sender : Transfer.Sender
  auth : Option (Authenticator μ)

namespace Multiplier

/-- Work for a multiplier. -/
inductive Job (τ : Type) where
  /-- The cross products of two lists of shares. -/
  | triple (a b : List τ)
  /-- The cross products of a list of shares with itself. -/
  | square (a : List τ)
  /-- The tags of the inputs of one party; all others give zeros. -/
  | input (owner : Nat) (values : List τ)
  /-- The cross terms of the tags of shared values. -/
  | authenticate (values : List τ)

/-- The number of values of a job. -/
def Job.length {τ : Type} : Job τ → Nat
  | triple a _ | square a => a.length
  | input _ values | authenticate values => values.length

/-- Shares of what a job computes. -/
inductive Output (τ μ : Type) where
  | products (values : List τ)
  | tags (values : List μ)

variable {σ τ μ : Type} [ShareRing τ] [ShareRing μ]

/-- The bits of an element as choices. -/
def elementBits (x : τ) : List Bool :=
  (List.range (bits τ)).map (bit x)

/-- Runs two halves of a step; the lower party has the first half first. -/
def inOrder {α β : Type} (l : LinkEnd) (first : Session σ α) (second : Session σ β) :
    Session σ (α × β) := do
  if l.me < l.peer then
    let a ← first
    let b ← second
    pure (a, b)
  else
    let b ← second
    let a ← first
    pure (a, b)

/-- A step of the receiver. -/
def receiving {α : Type} (s : Session Transfer.Receiver α) : Session (Multiplier μ) α :=
  s.zoom (·.receiver) fun receiver m => { m with receiver }

/-- A step of the sender. -/
def sending {α : Type} (s : Session Transfer.Sender α) : Session (Multiplier μ) α :=
  s.zoom (·.sender) fun sender m => { m with sender }

/-- Transfers for the bits of the keys of both parties, and what is built on them. -/
def setupKey (l : LinkEnd) (key : μ) (passive : Bool) : Session (Multiplier μ) Unit := do
  let choices := BitString.ofBits (elementBits key)
  let (chosen, pairs) ← inOrder l
    (receiving (Transfer.Receiver.receive l choices))
    (sending (Transfer.Sender.send l (bits μ)))
  let input ← Session.check (LinearEvaluation.InputHolder.ofSeeds μ pairs passive)
  let key ← Session.check (LinearEvaluation.KeyHolder.ofSeeds key chosen passive)
  modify ({ · with auth := some ⟨input, key⟩ })

/-- Sets up a multiplier from base transfers; with a key, it can authenticate. -/
def setup (l : LinkEnd) (seeds : Transfer.Seeds) (key : Option μ) (passive : Bool) :
    Session σ (Multiplier μ) := do
  let receiver ← Session.check (Transfer.Receiver.ofSeeds seeds.sent passive)
  let sender ← Session.check (Transfer.Sender.ofSeeds seeds.choices seeds.received passive)
  let m : Multiplier μ := ⟨receiver, sender, none⟩
  match key with
  | none => pure m
  | some key =>
    let (_, m) ← Session.borrow (setupKey l key passive) m
    pure m

/-- A chosen row for each bit, corrected where the bit is set, gives a share of the
product of `b` with what the correction hides. -/
def productReceived (chosen : List Block) (u : Rectangle τ τ) (b : τ) : Except Error τ := do
  let rows ← Rectangle.ofBlocks chosen
  .ok (rows.addWhere b u).compose

/-- The correction that hides `a`, with this party's share of the product. -/
def productSent (pairs : List (Block × Block)) (a : τ) : Except Error (Rectangle τ τ × τ) := do
  let m0 : Rectangle τ τ ← Rectangle.ofBlocks (pairs.map (·.1))
  let m1 ← Rectangle.ofBlocks (pairs.map (·.2))
  let same ← Rectangle.ofRows (List.replicate (bits τ) a)
  .ok ((m0.sub m1).add same, -m0.compose)

/-- Shares of the products of the peer's values with `b`. -/
def multiplyReceiving (l : LinkEnd) (b : List τ) : Session (Multiplier μ) (List τ) := do
  let choices := BitString.ofBits (b.flatMap elementBits)
  let chosen ← receiving (Transfer.Receiver.receive l choices)
  let corrections ← l.recvList "Gilboa_u" (Rectangle.wire τ τ) b.length
  Session.check <| ((batches (bits τ) chosen).zip (corrections.zip b)).mapM fun (chosen, u, b) =>
    productReceived chosen u b

/-- Shares of the products of `a` with the peer's values. -/
def multiplySending (l : LinkEnd) (a : List τ) : Session (Multiplier μ) (List τ) := do
  let pairs ← sending (Transfer.Sender.send l (a.length * bits τ))
  let sent ← Session.check <| ((batches (bits τ) pairs).zip a).mapM fun (pairs, a) =>
    productSent pairs a
  l.send (Rectangle.wire τ τ).list (sent.map (·.1))
  pure (sent.map (·.2))

/-- Shares of the products of each party's `a` with the other's `b`. -/
def crossProducts (l : LinkEnd) (a b : List τ) : Session (Multiplier μ) (List τ) := do
  Session.check (checkLength a.length b.length)
  let (received, sent) ← inOrder l (multiplyReceiving l b) (multiplySending l a)
  pure (List.zipWith (· + ·) received sent)

/-- A step of the linear evaluations, which are there only with a key. -/
def authenticating {α : Type} (s : Session (Authenticator μ) α) : Session (Multiplier μ) α := do
  match (← get).auth with
  | none => Session.fail (.config .noKeyHere)
  | some auth =>
    s.zoom (fun m => m.auth.getD auth) fun auth m => { m with auth := some auth }

/-- Shares of the peer's key times this party's values. -/
def authenticateMine (l : LinkEnd) (values : List μ) : Session (Authenticator μ) (List μ) :=
  (LinearEvaluation.InputHolder.evaluate l values).zoom (·.input) fun input a => { a with input }

/-- Shares of this party's key times the peer's `n` values. -/
def authenticateTheirs (l : LinkEnd) (n : Nat) : Session (Authenticator μ) (List μ) :=
  (LinearEvaluation.KeyHolder.evaluate l n).zoom (·.key) fun key a => { a with key }

variable [Lift τ μ]

/-- Shares of each party's key times the other's values. -/
def authenticate (l : LinkEnd) (values : List τ) : Session (Multiplier μ) (List μ) := do
  let (mine, theirs) ← authenticating <| inOrder l
    (authenticateMine l (values.map Lift.lift)) (authenticateTheirs l values.length)
  pure (List.zipWith (· + ·) mine theirs)

/-- Shares of the tags of one party's inputs; they are zero between two others. -/
def authenticateInput (l : LinkEnd) (owner : Nat) (values : List τ) :
    Session (Multiplier μ) (List μ) := do
  if owner ≠ l.me ∧ owner ≠ l.peer then pure (List.replicate values.length 0)
  else if owner = l.me then authenticating (authenticateMine l (values.map Lift.lift))
  else authenticating (authenticateTheirs l values.length)

/-- Runs a job with the peer. -/
def process (l : LinkEnd) : Job τ → Session (Multiplier μ) (Output τ μ)
  | .triple a b => .products <$> crossProducts l a b
  | .square a => .products <$> crossProducts l a a
  | .input owner values => .tags <$> authenticateInput l owner values
  | .authenticate values => .tags <$> authenticate l values

end Multiplier

end Beaver
