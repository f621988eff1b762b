import Beaver.Network.Edit
import Beaver.Transfer.Receiver
import Beaver.Transfer.Sender

/-!
# Both ends of a transfer extension

The receiver is party 0 and the sender party 1 of one network.  Phases can be run
at one end, while its messages wait for the other, or at both ends at once.
-/

namespace Beaver.Transfer

/-- A receiver, a sender and the links between them. -/
structure Pair where
  receiver : Receiver
  sender : Sender
  network : Network
  /-- The size of the batch that the receiver was last asked to expand to. -/
  asked : Nat

namespace Pair

variable {α β : Type}

/-- Runs the programs of both ends on a network.  Nothing results while an end still
waits. -/
def runOn? (interfere : Interference) (p : Pair) (network : Network)
    (r : Protocol (Except Failure α × Receiver)) (s : Protocol (Except Failure β × Sender)) :
    Option (Except Failure α × Except Failure β × Pair) :=
  match network.runPair interfere r s with
  | (some (a, receiver), some (b, sender), network) =>
    some (a, b, { p with receiver, sender, network := network.reopen })
  | _ => none

/-- Runs a phase at both ends, from the messages on their way. -/
def run? (interfere : Interference) (r : Session Receiver α) (s : Session Sender β) (p : Pair) :
    Option (Except Failure α × Except Failure β × Pair) :=
  p.runOn? interfere p.network (r.start p.receiver) (s.start p.sender)

/-- Runs a phase at both ends and drops what is left on its way.  An end that fails at
once has closed its direction before the other starts. -/
def both? (interfere : Interference) (r : Session Receiver α) (s : Session Sender β) (p : Pair) :
    Option (Except Failure α × Except Failure β × Pair) :=
  let r := r.start p.receiver
  let s := s.start p.sender
  let network := p.network.leave [Functor.discard r, Functor.discard s]
  (p.runOn? interfere network r s).map fun (a, b, p) =>
    (a, b, { p with network := p.network.drain })

/-- The receiver's last message that the sender has not yet got. -/
def lastMessage? (p : Pair) : Option Bytes :=
  (p.network.pipe 0 1).inFlight.getLast?

/-- Changes that message. -/
def editLast (e : Edit) (p : Pair) : Pair :=
  { p with network := p.network.modifyPipe 0 1 fun pipe =>
      { pipe with inFlight := pipe.inFlight.dropLast ++ (p.lastMessage?.bind e.apply).toList } }

/-- The number of bytes of a square in a message: its length and 128 rows. -/
def squareSize : Nat := 8 + 128 * 16

/-- That message, and the first two, the middle and the last row of each square in it
that is full of transfers.  Nothing is seen of a message without a first square's
length or without those squares. -/
def glimpse? (p : Pair) : Option (Bytes × List (List Bytes)) := do
  let m ← p.lastMessage?
  let full := p.asked / 128
  if m.length < 16 || m.length < 8 + full * squareSize then none
  else
    let row (square i : Nat) := (m.drop (16 + square * squareSize + i * 16)).take 16
    some (m, (List.range full).map fun square => [0, 1, 64, 127].map (row square))

end Pair

end Beaver.Transfer
