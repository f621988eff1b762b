import Beaver.Protocol
import Beaver.Random.Keystream

/-!
# Parties on reliable links

Between every two parties runs a link that delivers messages in order in each
direction.  Sending never waits.  A link is closed when one of its parties gives
it up or is done; what was sent before is still delivered.  Messages can be
interfered with on their way.

The parties' steps are interleaved by taking the first party that can move.  Since
each direction has one sender and one receiver, the results do not depend on that
choice.
-/

namespace Beaver

/-- One direction of a link. -/
structure Pipe where
  /-- Delivered but not yet received, the oldest first. -/
  inFlight : List Bytes
  /-- Everything sent, the newest first. -/
  sent : List Bytes
  closed : Bool

/-- What becomes of message number `k` from one party to another. -/
abbrev Interference := (source target k : Nat) → Bytes → Option Bytes

/-- A party's private randomness.  Nothing is assumed about it but that a draw has as
many bytes as are asked for, so whatever holds for all coins holds for all outcomes. -/
structure Coins where
  /-- What draw number `k` gives when `n` bytes are asked for. -/
  draws : (k n : Nat) → Bytes
  length_draws : ∀ k n, (draws k n).length = n
  /-- The number of draws so far. -/
  used : Nat

/-- Coins from a seed: every draw has a keystream of its own. -/
def Coins.ofSeed (seed : Nat) : Coins where
  draws k n := ((Keystream.ofSeed (Block.ofNat (seed * Nat.pow 2 64 + k))).fill n).1
  length_draws _ n := Keystream.length_fill n _
  used := 0

/-- The next bytes. -/
def Coins.draw (c : Coins) (n : Nat) : Bytes × Coins :=
  (c.draws c.used n, { c with used := c.used + 1 })

/-- The links between all parties and their private randomness. -/
structure Network where
  /-- The pipes, by source and target. -/
  pipes : List (List Pipe)
  /-- The coins, by party. -/
  coins : List Coins

namespace Network

variable {α β : Type}

/-- Open links between parties with the given coins. -/
def ofCoins (coins : List Coins) : Network where
  pipes := List.replicate coins.length (List.replicate coins.length ⟨[], [], false⟩)
  coins := coins

/-- Open links between `n` parties, each with coins from a seed of its own. -/
def ofParties (n : Nat) : Network :=
  ofCoins ((List.range n).map Coins.ofSeed)

/-- The pipe from one party to another; where there is none, a closed one. -/
def pipe (net : Network) (source target : Nat) : Pipe :=
  ((net.pipes[source]?).bind (·[target]?)).getD ⟨[], [], true⟩

/-- Changes one pipe. -/
def modifyPipe (net : Network) (source target : Nat) (f : Pipe → Pipe) : Network :=
  { net with pipes := net.pipes.modify source (·.modify target f) }

/-- Puts a message on its way. -/
def post (net : Network) (interfere : Interference) (source target : Nat) (message : Bytes) :
    Network :=
  net.modifyPipe source target fun p =>
    let delivered := interfere source target p.sent.length message
    { p with inFlight := p.inFlight ++ delivered.toList, sent := message :: p.sent }

/-- Closes a direction for further messages. -/
def shut (net : Network) (source target : Nat) : Network :=
  net.modifyPipe source target ({ · with closed := true })

/-- Whether a party has a link to another and has not given it up. -/
def joins (net : Network) (party peer : Nat) : Bool :=
  party != peer && !(net.pipe party peer).closed

/-- Closes all directions from a party. -/
def shutAll (net : Network) (source : Nat) : Network :=
  { net with pipes := net.pipes.modify source (·.map ({ · with closed := true })) }

/-- The next message from a source, or nothing if none can come any more; undefined
while one may still come. -/
def take? (net : Network) (source target : Nat) : Option (Option Bytes × Network) :=
  let p := net.pipe source target
  match p.inFlight with
  | m :: rest => some (some m, net.modifyPipe source target ({ · with inFlight := rest }))
  | [] => if p.closed then some (none, net) else none

/-- Draws a party's random bytes. -/
def drawFor (net : Network) (party n : Nat) : Bytes × Network :=
  match net.coins[party]? with
  | none => ([], net)
  | some c =>
    let (bs, c) := c.draw n
    (bs, { net with coins := net.coins.set party c })

/-- The messages sent from one party to another, the oldest first. -/
def transcript (net : Network) (source target : Nat) : List Bytes :=
  (net.pipe source target).sent.reverse

/-- The first of the awaited peers that has an answer. -/
def answer? (net : Network) (me : Nat) :
    (peers : List Nat) → Option (Fin peers.length × Option Bytes × Network)
  | [] => none
  | peer :: peers =>
    match net.take? peer me with
    | some (m, net) => some (⟨0, Nat.zero_lt_succ _⟩, m, net)
    | none => (net.answer? me peers).map fun (i, m, net) => (i.succ, m, net)

/-- One step of a party, unless it is done or has to wait. -/
def step? (net : Network) (interfere : Interference) (me : Nat) :
    (p : Protocol α) → Option ({ q : Protocol α // q.Child p } × Network)
  | .done _ => none
  | .send peer message next => some (⟨next, .send⟩, net.post interfere me peer message)
  | .close peer next => some (⟨next, .close⟩, net.shut me peer)
  | .draw n next =>
    let (bs, net) := net.drawFor me n
    some (⟨next bs, .draw bs⟩, net)
  | .recv peers next =>
    (net.answer? me peers).map fun (i, m, net) => (⟨next i m, .recv i m⟩, net)

/-- One step of the first party that can move; a party that is done leaves. -/
def stepAny? (interfere : Interference) (me : Nat) (net : Network) :
    (ps : List (Protocol α)) → Option ({ qs : List (Protocol α) // Protocol.Advance qs ps } × Network)
  | [] => none
  | p :: ps =>
    match net.step? interfere me p with
    | some (⟨q, h⟩, net) =>
      some (⟨q :: ps, .head h⟩, if q.isDone then net.shutAll me else net)
    | none =>
      (stepAny? interfere (me + 1) net ps).map fun (qs, net) =>
        (⟨p :: qs.1, .tail qs.2⟩, net)

/-- Runs the parties until none can move. -/
def runFrom (interfere : Interference) (net : Network) (ps : List (Protocol α)) :
    List (Protocol α) × Network :=
  match stepAny? interfere 0 net ps with
  | some (⟨qs, _⟩, net) => runFrom interfere net qs
  | none => (ps, net)
termination_by ps
decreasing_by assumption

/-- Opens all links again; what was sent before is still delivered. -/
def reopen (net : Network) : Network :=
  { net with pipes := net.pipes.map (·.map ({ · with closed := false })) }

/-- Drops everything that is on its way. -/
def drain (net : Network) : Network :=
  { net with pipes := net.pipes.map (·.map ({ · with inFlight := [] })) }

/-- Closes the links of the parties that are done from the start. -/
def leave (net : Network) (ps : List (Protocol α)) : Network :=
  (ps.zipIdx.filter (·.1.isDone)).foldl (fun net p => net.shutAll p.2) net

/-- Runs two parties with results of different kinds. -/
def runPair (interfere : Interference) (net : Network) (p : Protocol α) (q : Protocol β) :
    Option α × Option β × Network :=
  let (ps, net) := runFrom interfere net [Sum.inl <$> p, Sum.inr <$> q]
  let results := ps.filterMap Protocol.result?
  (results.findSome? Sum.getLeft?, results.findSome? Sum.getRight?, net)

/-- Runs the parties on a network and returns their results; a party that waits for
ever has none. -/
def runOn (net : Network) (interfere : Interference) (ps : List (Protocol α)) :
    List (Option α) × Network :=
  let (ps, net) := runFrom interfere (net.leave ps) ps
  (ps.map Protocol.result?, net)

/-- Runs the parties on a network of their own. -/
def run (interfere : Interference) (ps : List (Protocol α)) : List (Option α) × Network :=
  (ofParties ps.length).runOn interfere ps

end Network

end Beaver
