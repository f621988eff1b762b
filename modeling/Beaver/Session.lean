import Beaver.Capacity
import Beaver.Protocol
import Beaver.Wire

/-!
# Steps of a protocol object

A step of an object with state may fail, and the state it has then is part of what
it does: the next step starts from there.  This module has the steps that all
objects share, namely sending, receiving and exchanging values on one link.
-/

namespace Beaver

/-- A step that changes a state and may fail; the state is kept when it does. -/
abbrev Session (σ : Type) := ExceptT Failure (StateT σ Protocol)

namespace Session

variable {σ τ α β : Type}

/-- Runs a step from a state. -/
def start (s : Session σ α) (state : σ) : Protocol (Except Failure α × σ) :=
  StateT.run (ExceptT.run s) state

/-- A program as a step. -/
def perform (p : Protocol α) : Session σ α :=
  ExceptT.lift (StateT.lift p)

/-- Fails with an error. -/
def fail (e : Error) : Session σ α :=
  throw (.error e)

/-- A result that may be an error. -/
def check : Except Error α → Session σ α
  | .ok a => pure a
  | .error e => fail e

/-- A result that may be missing because of a fault. -/
def total : Option α → Session σ α
  | some a => pure a
  | none => throw .fault

/-- A step on a part of the state. -/
def zoom (get : τ → σ) (set : σ → τ → τ) (s : Session σ α) : Session τ α :=
  ExceptT.mk fun t => do
    let (r, part) ← s.start (get t)
    pure (r, set part t)

/-- A step of an object that is used only here. -/
def enclose (s : Session σ α) (state : σ) : Session τ α :=
  ExceptT.mk fun t => do
    let (r, _) ← s.start state
    pure (r, t)

/-- A step of an object that is used on afterwards. -/
def borrow (s : Session σ α) (state : σ) : Session τ (α × σ) :=
  ExceptT.mk fun t => do
    let (r, state) ← s.start state
    pure (r.map (·, state), t)

/-- The outcome of a step, whether it fails or not. -/
def attempt (s : Session σ α) : Session σ (Except Failure α) :=
  ExceptT.mk fun t => do
    let (r, t) ← s.start t
    pure (.ok r, t)

/-- Runs a step for one input after the other and collects the outcomes.  An error
is the last of them, unless its input may fail.  A fault leaves no outcomes. -/
def runEach (step : β → Session σ α) (mayFail : β → Bool) :
    List β → Session σ (List (Except Failure α))
  | [] => pure []
  | b :: bs => do
      match ← attempt (step b) with
      | .error .fault => throw .fault
      | outcome =>
        if outcome.isOk || mayFail b then
          let rest ← runEach step mayFail bs
          pure (outcome :: rest)
        else pure [outcome]

/-- Private random bytes. -/
def draw (n : Nat) : Session σ Bytes :=
  perform (.draw n .done)

/-- Closes the link to a peer. -/
def close (peer : Nat) : Session σ Unit :=
  perform (.close peer (.done ()))

/-- Makes sure that memory has room for items of the given size. -/
def room (n size : Nat) : Session σ Unit := do
  let _ ← total (room? n size)

/-- A private random ring element. -/
def drawElement [ShareRing α] : Session σ α := do
  let bs ← draw 16
  pure (ShareRing.ofBlock (Block.ofBytes bs))

/-- Private random ring elements. -/
def drawElements [ShareRing α] : Nat → Session σ (List α)
  | 0 => pure []
  | n + 1 => do
      let x ← drawElement
      let xs ← drawElements n
      pure (x :: xs)

end Session

/-- One party's end of a link: the address of the other end, and the indices that
the two parties go by on it. -/
structure LinkEnd where
  address : Nat
  me : Nat
  peer : Nat

namespace LinkEnd

variable {σ α : Type}

/-- Sends a value. -/
def send (l : LinkEnd) (w : Wire α) (a : α) : Session σ Unit :=
  Session.perform (.send l.address (w.encode a) (.done ()))

/-- Receives a value. -/
def recv (l : LinkEnd) (phase : String) (w : Wire α) : Session σ α := do
  match ← Session.perform (.recvFrom l.address) with
  | none => Session.fail (.link phase .closed)
  | some bs =>
    match w.read bs with
    | .ok a => pure a
    | .error why => Session.fail (.link phase (.malformed why))

/-- Receives a list of a known length. -/
def recvList (l : LinkEnd) (phase : String) (w : Wire α) (n : Nat) : Session σ (List α) := do
  let xs ← l.recv phase w.list
  if xs.length = n then pure xs
  else Session.fail (.link phase (.length n xs.length))

/-- Sends a value and receives the other end's.  The lower index sends first. -/
def exchange (l : LinkEnd) (phase : String) (w : Wire α) (a : α) : Session σ α := do
  if l.me < l.peer then
    l.send w a
    l.recv phase w
  else
    let theirs ← l.recv phase w
    l.send w a
    pure theirs

end LinkEnd

end Beaver
