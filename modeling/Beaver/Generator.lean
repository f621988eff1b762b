import Beaver.Config
import Beaver.Generator.Workers
import Beaver.Share
import Beaver.Transfer.Setup

/-!
# Generating preprocessing data

All parties together make triples, squares and input masks of random values.  Each
draws its own shares; the product of two sums has the terms that a party can compute
alone, and the cross terms that it shares with each of its peers.  Tags are made in
the same way from the shares of the key.

The data has not been checked: a dishonest party may have made it wrong.
-/

namespace Beaver

open ShareRing

/-- A party's part in generating data. -/
structure Generator (τ μ : Type) where
  player : Player
  batchSize : Nat
  /-- The share of the key, if values are authenticated. -/
  key : Option μ
  workers : Workers τ μ

namespace Generator

variable {σ τ μ : Type} [ShareRing τ] [ShareRing μ] [Lift τ μ]

/-- Sets up multipliers one after the other. -/
def setupInline (p : Player) (key : Option μ) (passive : Bool) :
    List (Nat × Transfer.Seeds) → Session σ (List (LinkEnd × Multiplier μ))
  | [] => pure []
  | (peer, seeds) :: rest => do
      let m ← Multiplier.setup (p.link peer) seeds key passive
      let ms ← setupInline p key passive rest
      pure ((p.link peer, m) :: ms)

/-- Sets up a multiplier for each peer from the seeds of the base transfers with it. -/
def ofSeeds (p : Player) (c : Config) (key : Option μ) (seeds : List (Nat × Transfer.Seeds)) :
    Session σ (Generator τ μ) := do
  if c.threaded then
    let workers ← Session.perform <| Protocol.parallel <|
      seeds.map fun (peer, seeds) => Worker.start (p.link peer) seeds key c.passive
    pure ⟨p, c.batchSize, key, .threaded workers⟩
  else
    let multipliers ← setupInline p key c.passive seeds
    pure ⟨p, c.batchSize, key, .inline multipliers⟩

/-- Runs the base transfers with all peers and sets up a multiplier for each. -/
def setup (g : Transfer.Group) (p : Player) (c : Config) : Session σ (Generator τ μ) := do
  Session.check (c.validate.mapError .config)
  if p.me ≠ c.me ∨ p.parties ≠ c.parties then
    Session.fail (.config (.wrongPlayer p.me p.parties c.me c.parties))
  let bases ← Transfer.Setup.prepare p c.baseTransfers
  let (_, bases) ← (Transfer.Setup.run g p).borrow bases
  let key ← if c.authenticate then some <$> Session.drawElement else pure none
  let takeAll : Session Transfer.Setup (List (Nat × Transfer.Seeds)) :=
    p.peers.mapM fun peer => (peer, ·) <$> Transfer.Setup.take peer
  let (seeds, _) ← takeAll.borrow bases
  ofSeeds p c key seeds

/-- The share of the key, which is needed here. -/
def needKey : Session (Generator τ μ) μ := do
  match (← get).key with
  | some key => pure key
  | none => Session.fail (.config .noKey)

/-- Runs a job with all peers and adds up what `pick` finds in the results. -/
def crossTerms {α : Type} [ShareRing α] (pick : Multiplier.Output τ μ → Except Error (List α))
    (job : Multiplier.Job τ) : Session (Generator τ μ) (List α) := do
  let outputs ← (Workers.run job).zoom (·.workers) fun workers g => { g with workers }
  let parts ← Session.check (outputs.mapM fun out => do
    let part ← pick out
    checkLength job.length part.length
    pure part)
  pure (parts.foldl (List.zipWith (· + ·)) (List.replicate job.length 0))

/-- The products in a result. -/
def pickProducts : Multiplier.Output τ μ → Except Error (List τ)
  | .products values => .ok values
  | .tags _ => .error (.misuse .tagsForProducts)

/-- The tags in a result. -/
def pickTags : Multiplier.Output τ μ → Except Error (List μ)
  | .tags values => .ok values
  | .products _ => .error (.misuse .productsForTags)

/-- Runs jobs one after the other and joins their results. -/
def crossAll {α : Type} [ShareRing α] (pick : Multiplier.Output τ μ → Except Error (List α))
    (jobs : List (Multiplier.Job τ)) : Session (Generator τ μ) (List α) := do
  let parts ← jobs.mapM (crossTerms pick)
  pure parts.flatten

/-- Shares of the products of the values that `a` and `b` are shares of. -/
def products (a b : List τ) : Session (Generator τ μ) (List τ) := do
  let n := (← get).batchSize
  let cross ← crossAll pickProducts (List.zipWith .triple (batches n a) (batches n b))
  pure (List.zipWith (· + ·) (List.zipWith (· * ·) a b) cross)

/-- Shares of the squares of the values that `a` are shares of. -/
def squareShares (a : List τ) : Session (Generator τ μ) (List τ) := do
  let cross ← crossAll pickProducts ((batches (← get).batchSize a).map .square)
  pure (List.zipWith (· + ·) (List.zipWith (· * ·) a a) cross)

/-- Makes triples without tags. -/
def plainTriples (n : Nat) : Session (Generator τ μ) (List (PlainTriple τ)) := do
  Session.room n (bytes τ)
  let a ← Session.drawElements n
  let b ← Session.drawElements n
  let c ← products a b
  pure (List.zipWith (fun a (b, c) => ⟨a, b, c⟩) a (b.zip c))

/-- Adds tags to shares. -/
def authenticate (values : List τ) : Session (Generator τ μ) (List (Share τ μ)) := do
  let key ← needKey
  let tags ← crossAll pickTags ((batches (← get).batchSize values).map .authenticate)
  pure (List.zipWith (fun x tag => ⟨x, key * Lift.lift x + tag⟩) values tags)

/-- Makes triples. -/
def triples (n : Nat) : Session (Generator τ μ) (List (Triple τ μ)) := do
  let plain ← plainTriples n
  let shares ← authenticate (plain.map (·.a) ++ plain.map (·.b) ++ plain.map (·.c))
  let (a, rest) := shares.splitAt n
  let (b, c) := rest.splitAt n
  pure (List.zipWith (fun a (b, c) => ⟨a, b, c⟩) a (b.zip c))

/-- Makes pairs of a value and its square. -/
def squares (n : Nat) : Session (Generator τ μ) (List (Share τ μ × Share τ μ)) := do
  Session.room n (bytes τ)
  let a ← Session.drawElements n
  let s ← squareShares a
  let shares ← authenticate (a ++ s)
  let (a, s) := shares.splitAt n
  pure (a.zip s)

/-- Makes masks for the inputs of one party: its share is the mask itself, and all
others have zero. -/
def inputs (owner n : Nat) : Session (Generator τ μ) (List (InputMask τ μ)) := do
  let g ← get
  if g.player.parties ≤ owner then
    Session.fail (.config (.noSuchParty owner g.player.parties))
  let key ← needKey
  Session.room n (bytes τ)
  let mine := owner = g.player.me
  let values ← if mine then Session.drawElements n else pure (List.replicate n 0)
  let tags ← crossAll pickTags ((batches g.batchSize values).map (.input owner))
  pure (List.zipWith (fun x tag =>
    ⟨⟨x, if mine then key * Lift.lift x + tag else tag⟩, x⟩) values tags)

/-- Ends the multipliers and gives back the party with its links. -/
def release (g : Generator τ μ) : Except Error Player := do
  g.workers.stop
  .ok g.player

end Generator

end Beaver
