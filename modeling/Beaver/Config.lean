import Beaver.Config.Document
import Beaver.Wire

/-!
# Parameters of a run

All parties of a run have the same parameters but for their own index.  They come
from a parameter file, in which everything has a default, or in a message.
-/

namespace Beaver

/-- A length of time. -/
structure Duration where
  seconds : Nat
  nanos : Nat
  deriving DecidableEq

namespace Duration

/-- Nanoseconds that make up whole seconds are carried over. -/
def ofParts? (seconds nanos : Nat) : Option Duration :=
  let total := seconds + nanos / 1000000000
  if total < Nat.pow 2 64 then some ⟨total, nanos % 1000000000⟩ else none

/-- The field names of a duration. -/
def fieldNames : List String := ["secs", "nanos"]

/-- The duration that a document describes; both fields have to be there. -/
def ofDocument? (d : Document) : Option Duration := do
  guard (d.isExactRecord fieldNames)
  let seconds ← (← d.field? fieldNames 0).count?
  let nanos ← (← d.field? fieldNames 1).below? (Nat.pow 2 32)
  ofParts? seconds nanos

/-- The document that describes a duration. -/
def toDocument (t : Duration) : Document :=
  .record (fieldNames.zip [.integer t.seconds, .integer t.nanos])

end Duration

/-- The parameters of a run. -/
structure Config where
  parties : Nat := 2
  me : Nat := 0
  /-- How many values a job of a multiplier has at most. -/
  batchSize : Nat := 1024
  /-- How many items one sacrifice keeps. -/
  amortize : Nat := 512
  baseTransfers : Nat := 128
  /-- Trust the other parties to follow the protocols. -/
  passive : Bool := false
  /-- Authenticate the shared values. -/
  authenticate : Bool := true
  /-- Talk to all peers at once. -/
  threaded : Bool := true
  /-- Insist on wide vector instructions. -/
  vectorised : Bool := false
  /-- Where checked preprocessing data is stored. -/
  directory : Option String := none
  /-- How long to wait for a connection. -/
  timeout : Duration := ⟨60, 0⟩
  deriving DecidableEq

namespace Config

/-- The parameters of party `me` of `parties`. -/
def ofParty (parties me : Nat) : Config :=
  { parties, me }

/-- The parameters of a party that trusts the others and needs no authentication. -/
def semiHonest (parties me : Nat) : Config :=
  { parties, me, passive := true, authenticate := false }

/-- Whether a run can use the parameters. -/
def validate (c : Config) : Except ConfigFault Unit := do
  if c.parties < 2 then throw (.tooFewParties c.parties)
  if c.parties ≤ c.me then throw (.noSuchParty c.me c.parties)
  if c.baseTransfers ≠ 128 then throw (.baseTransfers c.baseTransfers)
  if c.batchSize = 0 then throw .emptyBatch
  if c.amortize = 0 then throw .emptySacrifice
  if !c.passive && !c.authenticate then throw .unauthenticated

/-- A bound on the size of all messages, as far as the machine width reaches. -/
def maxFrame (c : Config) : Nat :=
  min (4096 * max c.batchSize c.amortize + 65536) (Nat.pow 2 64 - 1)

/-- The field names of a parameter file. -/
def fieldNames : List String :=
  ["n_parties", "my_num", "batch_size", "amortize", "n_base_ots", "passive", "generate_macs",
    "multi_threaded", "require_avx2", "prep_dir", "connect_timeout"]

/-- The parameters that a document describes; those it does not mention have their
defaults, and what it mentions beyond them is ignored. -/
def ofDocument? (d : Document) : Option Config := do
  guard (d.isRecord fieldNames)
  let get {α : Type} (i : Nat) (read : Document → Option α) (default : α) : Option α :=
    match d.field? fieldNames i with
    | none => some default
    | some x => read x
  let base : Config := {}
  some {
    parties := ← get 0 Document.count? base.parties
    me := ← get 1 Document.count? base.me
    batchSize := ← get 2 Document.count? base.batchSize
    amortize := ← get 3 Document.count? base.amortize
    baseTransfers := ← get 4 Document.count? base.baseTransfers
    passive := ← get 5 Document.flag? base.passive
    authenticate := ← get 6 Document.flag? base.authenticate
    threaded := ← get 7 Document.flag? base.threaded
    vectorised := ← get 8 Document.flag? base.vectorised
    directory := ← get 9 Document.optionalText? base.directory
    timeout := ← get 10 Duration.ofDocument? base.timeout }

/-- The document that describes the parameters. -/
def toDocument (c : Config) : Document :=
  .record (fieldNames.zip [
    .integer c.parties, .integer c.me, .integer c.batchSize, .integer c.amortize,
    .integer c.baseTransfers, .flag c.passive, .flag c.authenticate, .flag c.threaded,
    .flag c.vectorised, (c.directory.map .text).getD .null, c.timeout.toDocument])

/-- The encoding in messages: the fields in order. -/
def wire : Wire Config where
  encode c :=
    [c.parties, c.me, c.batchSize, c.amortize, c.baseTransfers].flatMap Wire.count.encode
      ++ [c.passive, c.authenticate, c.threaded, c.vectorised].flatMap Wire.flag.encode
      ++ Wire.text.optional.encode c.directory
      ++ Wire.count.encode c.timeout.seconds ++ (Wire.number 4).encode c.timeout.nanos
  decode bs := do
    let (parties, bs) ← Wire.count.decode bs
    let (me, bs) ← Wire.count.decode bs
    let (batchSize, bs) ← Wire.count.decode bs
    let (amortize, bs) ← Wire.count.decode bs
    let (baseTransfers, bs) ← Wire.count.decode bs
    let (passive, bs) ← Wire.flag.decode bs
    let (authenticate, bs) ← Wire.flag.decode bs
    let (threaded, bs) ← Wire.flag.decode bs
    let (vectorised, bs) ← Wire.flag.decode bs
    let (directory, bs) ← Wire.text.optional.decode bs
    let (seconds, bs) ← Wire.count.decode bs
    let (nanos, bs) ← (Wire.number 4).decode bs
    match Duration.ofParts? seconds nanos with
    | none => .error .duration
    | some timeout =>
      .ok (⟨parties, me, batchSize, amortize, baseTransfers, passive, authenticate, threaded,
        vectorised, directory, timeout⟩, bs)

end Config

end Beaver
