import Beaver.Audit
import Beaver.Generator
import Beaver.PrepFile.Disk

/-!
# What a generator is used for

A party sets up a generator, makes data with it for a while, gives it up to have its
links back, and then checks what it made last, which has to be triples.  These are
requests with outcomes, so that the outcomes of all parties can be laid side by side.
-/

namespace Beaver.Generator

/-- A request to a party that has a generator or had one. -/
inductive Request (τ : Type) where
  | plainTriples (n : Nat)
  | triples (n : Nat)
  | squares (n : Nat)
  | inputs (owner n : Nat)
  | authenticate (values : List τ)
  /-- Give up the generator and tell everybody one's index. -/
  | release
  /-- Check the last items as triples; party 0 may first spoil one of them for good. -/
  | sacrifice (spoiled : Option Nat)

/-- What comes of a request. -/
inductive Outcome (τ μ : Type) where
  | plainTriples (triples : List (PlainTriple τ))
  | triples (triples : List (Triple τ μ))
  | squares (pairs : List (Share τ μ × Share τ μ))
  | inputs (owner : Nat) (masks : List (InputMask τ μ))
  | shares (shares : List (Share τ μ))
  | indices (parties : List Nat)
  | kept (n : Nat)

/-- A party in the course of its requests. -/
structure Run (τ μ : Type) where
  /-- The generator, until it is given up. -/
  generator? : Option (Generator τ μ)
  /-- The party with its links, afterwards. -/
  player? : Option Player
  /-- The shares of the items made last. -/
  last : List (List (Share τ μ))

/-- How a party checks triples under its share of the key. -/
abbrev Check (τ μ : Type) :=
  Player → μ → Config → List (Triple τ μ) → Session Disk (List (Triple τ μ))

variable {τ μ : Type} [ShareRing τ] [ShareRing μ] [Lift τ μ]

/-- The shares of the items that a request gave; values without tags have the tag zero. -/
def Outcome.items? : Outcome τ μ → Option (List (List (Share τ μ)))
  | .plainTriples ts => some (ts.map fun t => [⟨t.a, 0⟩, ⟨t.b, 0⟩, ⟨t.c, 0⟩])
  | .triples ts => some (ts.map Triple.parts)
  | .squares ps => some (ps.map fun (a, s) => [a, s])
  | .inputs _ masks => some (masks.map fun m => [m.share])
  | .shares xs => some (xs.map fun x => [x])
  | .indices _ => none
  | .kept _ => none

/-- Adds one to the product share of an item, which has to be a triple. -/
def spoil? (i : Nat) (items : List (List (Share τ μ))) : Option (List (List (Share τ μ))) := do
  let t ← Triple.ofParts? (← items[i]?)
  let spoiled : Triple τ μ := { t with c := { t.c with value := t.c.value + 1 } }
  some (items.set i spoiled.parts)

/-- A step of the generator, which must be there. -/
def Run.useGenerator {α : Type} (s : Session (Generator τ μ) α) : Session (Run τ μ) α := do
  match (← get).generator? with
  | none => throw .fault
  | some g => s.zoom (·.generator?.getD g) fun g run => { run with generator? := some g }

/-- Keeps the items of an outcome as those made last. -/
def Run.keep (outcome : Outcome τ μ) : Session (Run τ μ) (Outcome τ μ) := do
  if let some items := outcome.items? then modify ({ · with last := items })
  pure outcome

/-- Fulfils a request. -/
def Run.perform (c : Config) (key : Option μ) (check : Check τ μ) :
    Request τ → Session (Run τ μ) (Outcome τ μ)
  | .plainTriples n => do
      Run.keep (.plainTriples (← Run.useGenerator (Generator.plainTriples n)))
  | .triples n => do Run.keep (.triples (← Run.useGenerator (Generator.triples n)))
  | .squares n => do Run.keep (.squares (← Run.useGenerator (Generator.squares n)))
  | .inputs owner n => do
      Run.keep (.inputs owner (← Run.useGenerator (Generator.inputs owner n)))
  | .authenticate values => do
      Run.keep (.shares (← Run.useGenerator (Generator.authenticate values)))
  | .release => do
      match (← get).generator? with
      | none => throw .fault
      | some g =>
        modify ({ · with generator? := none })
        let p ← Session.check g.release
        modify ({ · with player? := some p })
        .indices <$> p.broadcast "ids" Wire.count p.me
  | .sacrifice spoiled => do
      match (← get).player? with
      | none => throw .fault
      | some p =>
        if let some i := spoiled then
          if p.me = 0 then
            let last ← Session.total (spoil? i (← get).last)
            modify ({ · with last })
        let triples ← Session.total ((← get).last.mapM Triple.ofParts?)
        let kept ← (check p (← Session.total key) c triples).enclose .empty
        pure (.kept kept.length)

/-- What remains of a run. -/
structure Record (τ μ : Type) where
  /-- The share of the key, if there is one. -/
  key : Option μ
  /-- The index of the party, if it still has its generator. -/
  me? : Option Nat
  outcomes : List (Except Failure (Outcome τ μ))

/-- Sets up a generator and fulfils requests, each with whether it may fail without
ending the run. -/
def Run.record (g : Transfer.Group) (p : Player) (c : Config) (check : Check τ μ)
    (requests : List (Request τ × Bool)) : Protocol (Except Failure (Record τ μ)) := do
  let session : Session (Run τ μ) (Record τ μ) := do
    let generator : Generator τ μ ← Generator.setup g p c
    set (Run.mk (some generator) none ([] : List (List (Share τ μ))))
    let outcomes ← Session.runEach (fun t => Run.perform c generator.key check t.1) (·.2) requests
    let left := (← get).generator?
    pure ⟨generator.key, left.map (·.player.me), outcomes⟩
  let (result, _) ← session.start ⟨none, none, []⟩
  pure result

/-- Whether the items have tags. -/
def Outcome.tagged : Outcome τ μ → Bool
  | .plainTriples _ => false
  | _ => true

/-- What is found when the items of all parties are laid side by side. -/
structure Report (τ : Type) where
  /-- The number of items of each party. -/
  counts : List Nat
  /-- The items whose values are not related as they should be. -/
  wrong : List Nat
  /-- The parts of items whose tags are wrong. -/
  wrongTags : List (Nat × Nat)
  /-- For input masks, whether only the owner knows them. -/
  ownerOnly : Option Bool
  /-- For authenticated values, the values. -/
  opened : Option (List τ)

/-- Lays the outcomes of one request side by side, if every party has items.  The tags
are under the sum of all shares of the key. -/
def report? (key : μ) (outcomes : List (Outcome τ μ)) : Option (Report τ) := do
  let data ← outcomes.mapM Outcome.items?
  let masks := outcomes.mapM fun
    | .inputs owner masks => some (owner, masks)
    | _ => none
  some {
    counts := data.map List.length
    wrong := Audit.wrongItems data
    wrongTags := if outcomes.all Outcome.tagged then Audit.wrongTags key data else []
    ownerOnly := masks.map fun masks =>
      Audit.ownerOnly ((masks.head?.map (·.1)).getD 0) (masks.map (·.2))
    opened := match outcomes.head? with
      | some (.shares _) => some ((List.range (Audit.items data)).flatMap (Audit.values data))
      | _ => none }

/-- The report on one of the requests, if every party fulfilled it and has items. -/
def reportOn? (records : List (Record τ μ)) (request : Nat) : Option (Report τ) := do
  let outcomes ← records.mapM fun r => (r.outcomes[request]?).bind Except.toOption
  report? (ShareRing.sum (records.filterMap (·.key))) outcomes

end Beaver.Generator
