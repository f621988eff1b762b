import Beaver.Cipher.Digest
import Beaver.Session

/-!
# A party among others

When two parties exchange messages the lower index sends first, and a party talks
to its peers in ascending order.  This orders all exchanges of a run, so that no
set of parties can wait for each other in a circle.
-/

namespace Beaver

/-- A party with links to all others. -/
structure Player where
  me : Nat
  parties : Nat

namespace Player

variable {σ α : Type}

/-- The party with the given links.  There are at least two parties, and exactly
the link to itself is missing. -/
def ofLinks (me : Nat) (links : List Bool) : Except Error Player := do
  if links.length < 2 ∨ links.length ≤ me then
    throw (.config (.noPlace me links.length))
  match links.zipIdx.find? (fun p => (p.2 == me) == p.1) with
  | some p => throw (.config (.wrongLink me p.2))
  | none => .ok ⟨me, links.length⟩

/-- All other parties in ascending order. -/
def peers (p : Player) : List Nat :=
  (List.range p.parties).filter (· ≠ p.me)

/-- The end of the link to a peer. -/
def link (p : Player) (peer : Nat) : LinkEnd :=
  ⟨peer, p.me, peer⟩

/-- The end of the link to a peer, if there is such a peer. -/
def link? (p : Player) (peer : Nat) : Except Error LinkEnd :=
  if peer < p.parties ∧ peer ≠ p.me then .ok (p.link peer) else .error (.misuse .noLink)

/-- Sends a value to a peer. -/
def send (p : Player) (peer : Nat) (w : Wire α) (a : α) : Session σ Unit := do
  let l ← Session.check (p.link? peer)
  l.send w a

/-- Receives a value from a peer. -/
def recv (p : Player) (peer : Nat) (phase : String) (w : Wire α) : Session σ α := do
  let l ← Session.check (p.link? peer)
  l.recv phase w

/-- Sends each party a value of its own; there is none from the party itself. -/
def scatter (p : Player) (phase : String) (w : Wire α) (xs : List α) :
    Session σ (List (Option α)) := do
  Session.check (checkLength p.parties xs.length)
  xs.zipIdx.mapM fun (x, k) => do
    if k = p.me then pure none
    else
      let theirs ← (p.link k).exchange phase w x
      pure (some theirs)

/-- Sends all parties the same value and collects theirs, without making sure that
everybody got the same. -/
def gather (p : Player) (phase : String) (w : Wire α) (x : α) : Session σ (List α) :=
  (List.range p.parties).mapM fun k =>
    if k = p.me then pure x else (p.link k).exchange phase w x

/-- Like `gather`, and then all parties compare digests of what they got.  Two
parties have nothing to compare. -/
def broadcast (p : Player) (phase : String) (w : Wire α) (x : α) : Session σ (List α) := do
  let received ← p.gather phase w x
  if p.parties = 2 then pure received
  else
    let digests := received.map fun m => Digest.hash (w.encode m)
    let theirs ← p.gather (phase ++ " (verification)") (Wire.bytes 32).list digests
    if theirs.all (· == digests) then pure received
    else Session.fail (.cheat .broadcast)

end Player

end Beaver
