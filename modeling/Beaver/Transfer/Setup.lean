import Beaver.Player
import Beaver.Transfer.Base

/-!
# Base transfers with all peers
-/

namespace Beaver.Transfer

/-- A party's base transfers, by peer; none with itself, and none that were taken. -/
structure Setup where
  bases : List (Option Base)

namespace Setup

variable {σ : Type}

/-- The number of base transfers that extensions need. -/
def defaultCount : Nat := 128

/-- Prepares `n` transfers in both directions with every peer. -/
def prepare (p : Player) (n : Nat) : Session σ Setup := do
  let bases ← (List.range p.parties).mapM fun k => do
    if k = p.me then pure none
    else
      let b ← Base.ofCount .both n
      pure (some b)
  pure ⟨bases⟩

/-- The transfers with a peer, if they are there. -/
def base? (s : Setup) (peer : Nat) : Option Base :=
  (s.bases[peer]?).join

/-- Runs the transfers with one peer. -/
def runWith (g : Group) (p : Player) (peer : Nat) : Session Setup Unit := do
  match (← get).base? peer with
  | none => Session.fail (.misuse .noBase)
  | some b =>
    (Base.execute g (p.link peer) false).zoom
      (fun s => (s.base? peer).getD b) fun b s => { s with bases := s.bases.set peer (some b) }

/-- Runs the transfers with all peers in ascending order. -/
def run (g : Group) (p : Player) : Session Setup Unit :=
  p.peers.forM (runWith g p)

/-- Takes the seeds from the transfers with a peer, which is possible once. -/
def take (peer : Nat) : Session Setup Seeds := do
  match (← get).base? peer with
  | none => Session.fail (.misuse .baseTaken)
  | some b =>
    modify fun s => { s with bases := s.bases.set peer none }
    Session.check b.seeds

/-- Runs `n` transfers with every peer and takes seeds from them, one peer after the
other.  If `early` names a peer its seeds are taken before, which fails. -/
def runAndTake (g : Group) (p : Player) (n : Nat) (early : Option Nat) (peers : List Nat) :
    Session Setup (List (Except Failure Seeds)) := do
  set (← prepare p n)
  early.forM fun peer => Functor.discard (take peer)
  run g p
  Session.runEach take (fun _ => true) peers

/-- Every two parties that took the seeds of their transfers with each other, and
whether the seeds match in the two directions.  Given are the peers that all parties
asked for in turn and what each party got. -/
def matching (peers : List Nat) (taken : List (Option (List (Except Failure Seeds)))) :
    List (Nat × Nat × Bool × Bool) :=
  let seeds? (a b : Nat) : Option Seeds := do
    let outcomes ← (taken[a]?).join
    (peers.zip outcomes).findSome? fun (peer, r) => if peer == b then r.toOption else none
  let all := List.range taken.length
  all.flatMap fun a => (all.filter (a < ·)).filterMap fun b => do
    let x ← seeds? a b
    let y ← seeds? b a
    some (a, b, x.matches y, y.matches x)

end Setup

end Beaver.Transfer
