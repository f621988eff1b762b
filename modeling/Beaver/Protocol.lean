import Beaver.Bytes

/-!
# Programs of one party

What a party does is a tree: it sends a message, waits for one of several peers,
draws private random bytes, closes a link or is done.  The tree branches over
everything that can come back, so a property of all its paths is a property
against any behaviour of the peers.

Every path ends.  Programs running side by side are a list, and the list in which
one program has made one step comes before the list it came from; this order is
well founded, whichever program moves.
-/

namespace Beaver

/-- What a party does until it has a result. -/
inductive Protocol (α : Type) where
  /-- The result is there. -/
  | done (a : α)
  /-- Send a message to a peer. -/
  | send (peer : Nat) (message : Bytes) (next : Protocol α)
  /-- Wait for a message from any of the peers; a peer whose link is closed and
  drained answers with nothing. -/
  | recv (peers : List Nat) (next : Fin peers.length → Option Bytes → Protocol α)
  /-- Draw private random bytes. -/
  | draw (n : Nat) (next : Bytes → Protocol α)
  /-- Give up the link to a peer. -/
  | close (peer : Nat) (next : Protocol α)

namespace Protocol

variable {α β : Type}

/-- Continues with the result. -/
def bind (p : Protocol α) (f : α → Protocol β) : Protocol β :=
  match p with
  | done a => f a
  | send peer message next => send peer message (next.bind f)
  | recv peers next => recv peers fun i m => (next i m).bind f
  | draw n next => draw n fun bs => (next bs).bind f
  | close peer next => close peer (next.bind f)

instance : Monad Protocol where
  pure := done
  bind := bind

/-- Waits for the next message of one peer. -/
def recvFrom (peer : Nat) : Protocol (Option Bytes) :=
  recv [peer] fun _ m => done m

/-- Whether the result is there. -/
def isDone : Protocol α → Bool
  | done _ => true
  | _ => false

/-- The result, if it is there. -/
def result? : Protocol α → Option α
  | done a => some a
  | _ => none

/-- `Child q p`: program `p` is program `q` after one step. -/
inductive Child : Protocol α → Protocol α → Prop where
  | send {peer : Nat} {message : Bytes} {next : Protocol α} :
      Child next (.send peer message next)
  | recv {peers : List Nat} {next : Fin peers.length → Option Bytes → Protocol α}
      (i : Fin peers.length) (m : Option Bytes) : Child (next i m) (.recv peers next)
  | draw {n : Nat} {next : Bytes → Protocol α} (bs : Bytes) : Child (next bs) (.draw n next)
  | close {peer : Nat} {next : Protocol α} : Child next (.close peer next)

/-- Every path of a program ends. -/
theorem acc_child (p : Protocol α) : Acc Child p := by
  induction p with
  | done a => exact ⟨_, fun q h => by cases h⟩
  | send peer message next ih => exact ⟨_, fun q h => by cases h; exact ih⟩
  | recv peers next ih => exact ⟨_, fun q h => by cases h with | recv i m => exact ih i m⟩
  | draw n next ih => exact ⟨_, fun q h => by cases h with | draw bs => exact ih bs⟩
  | close peer next ih => exact ⟨_, fun q h => by cases h; exact ih⟩

/-- `Advance qs ps`: the programs `ps` are the programs `qs` after one of them made
one step. -/
inductive Advance : List (Protocol α) → List (Protocol α) → Prop where
  | head {q p : Protocol α} {ps : List (Protocol α)} (h : Child q p) :
      Advance (q :: ps) (p :: ps)
  | tail {p : Protocol α} {qs ps : List (Protocol α)} (h : Advance qs ps) :
      Advance (p :: qs) (p :: ps)

/-- One more program that ends does not change that all runs end. -/
theorem acc_advance_cons (p : Protocol α) :
    ∀ ps : List (Protocol α), Acc Advance ps → Acc Advance (p :: ps) := by
  induction acc_child p with
  | intro p _ ihp =>
    intro ps hps
    induction hps with
    | intro ps hacc ihps =>
      refine ⟨_, fun qs h => ?_⟩
      cases h with
      | head hchild => exact ihp _ hchild ps ⟨_, hacc⟩
      | tail htail => exact ihps _ htail

/-- **Programs side by side end**, whatever the order of their steps. -/
theorem wellFounded_advance : WellFounded (Advance (α := α)) := by
  refine ⟨fun ps => ?_⟩
  induction ps with
  | nil => exact ⟨_, fun qs h => by cases h⟩
  | cons p ps ih => exact acc_advance_cons p ps ih

instance : WellFoundedRelation (List (Protocol α)) := ⟨Advance, wellFounded_advance⟩

/-- A step that one of several programs can make without waiting. -/
inductive Move (ps : List (Protocol α)) where
  | send (peer : Nat) (message : Bytes) (qs : { qs : List (Protocol α) // Advance qs ps })
  | draw (n : Nat) (next : Bytes → { qs : List (Protocol α) // Advance qs ps })
  | close (peer : Nat) (qs : { qs : List (Protocol α) // Advance qs ps })

/-- The same step with one more program in front. -/
def Move.after {ps : List (Protocol α)} (p : Protocol α) : Move ps → Move (p :: ps)
  | .send peer message ⟨qs, h⟩ => .send peer message ⟨p :: qs, .tail h⟩
  | .draw n next => .draw n fun bs => ⟨p :: (next bs).1, .tail (next bs).2⟩
  | .close peer ⟨qs, h⟩ => .close peer ⟨p :: qs, .tail h⟩

/-- The first step that needs no waiting. -/
def move? : (ps : List (Protocol α)) → Option (Move ps)
  | [] => none
  | send peer message next :: ps => some (.send peer message ⟨next :: ps, .head .send⟩)
  | draw n next :: ps => some (.draw n fun bs => ⟨next bs :: ps, .head (.draw bs)⟩)
  | close peer next :: ps => some (.close peer ⟨next :: ps, .head .close⟩)
  | done a :: ps => (move? ps).map (Move.after (done a))
  | recv peers next :: ps => (move? ps).map (Move.after (recv peers next))

/-- A peer that one of several programs waits for, with what happens then. -/
structure Wait (ps : List (Protocol α)) where
  peer : Nat
  next : Option Bytes → { qs : List (Protocol α) // Advance qs ps }

/-- The same wait with one more program in front. -/
def Wait.after {ps : List (Protocol α)} (p : Protocol α) (w : Wait ps) : Wait (p :: ps) :=
  ⟨w.peer, fun m => ⟨p :: (w.next m).1, .tail (w.next m).2⟩⟩

/-- The peers that the first of several programs waits for. -/
def waitsOf (p : Protocol α) (ps : List (Protocol α)) : List (Wait (p :: ps)) :=
  match p with
  | recv peers next =>
    (List.finRange peers.length).map fun i =>
      ⟨peers.get i, fun m => ⟨next i m :: ps, .head (.recv i m)⟩⟩
  | done _ | send .. | draw .. | close .. => []

/-- All peers that the programs wait for. -/
def waits : (ps : List (Protocol α)) → List (Wait ps)
  | [] => []
  | p :: ps => waitsOf p ps ++ (waits ps).map (Wait.after p)

/-- Runs programs that use different links side by side.  Their own order of steps
does not matter; the results come in the order of the programs. -/
def parallel (ps : List (Protocol α)) : Protocol (List α) :=
  match move? ps with
  | some (.send peer message ⟨qs, _⟩) => send peer message (parallel qs)
  | some (.draw n next) => draw n fun bs => parallel (next bs).1
  | some (.close peer ⟨qs, _⟩) => close peer (parallel qs)
  | none =>
    match waits ps with
    | [] => done (ps.filterMap result?)
    | ws@(_ :: _) =>
      recv (ws.map Wait.peer) fun i m =>
        parallel ((ws.get (i.cast (List.length_map _))).next m).1
termination_by ps
decreasing_by
  · assumption
  · exact (next bs).2
  · assumption
  · exact ((ws.get (i.cast (List.length_map _))).next m).2

end Protocol

end Beaver
