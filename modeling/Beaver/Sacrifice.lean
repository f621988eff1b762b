import Beaver.Batches
import Beaver.MacCheck

/-!
# Checking by sacrifice

Raw data is checked in batches.  For triples, one half of a batch is kept and each
kept triple is compared with a sacrificed one: with a tossed `t` the parties open
`t * a - a'` and `b - b'`, from which they compute a share of a value that is zero
if both triples are right.  A random combination of these values is opened; only if
it is not zero are they opened one by one, to find the culprit.  Everything opened
has its tags checked before a batch is accepted.

Squares, bits and inverses follow the same pattern.
-/

namespace Beaver

/-- The tag checker of a party with the number of batches accepted so far. -/
structure Sacrifice (φ : Type) where
  checker : MacCheck φ
  batch : Nat

namespace Sacrifice

open ShareRing

/-- How a party checks: among whom, and how many pairs at a time. -/
structure Setting where
  player : Player
  amortize : Nat

/-- Batches hold at least one pair. -/
def Setting.of (player : Player) (amortize : Nat) : Except Error Setting :=
  if amortize = 0 then .error (.config .amortize) else .ok ⟨player, amortize⟩

/-- The number of items of a batch, as far as the machine word reaches. -/
def Setting.batchSize (c : Setting) : Nat :=
  min (2 * c.amortize) (Nat.pow 2 64 - 1)

variable {φ : Type} [ShareField φ]

/-- Nothing checked yet. -/
def ofKey (key : φ) : Sacrifice φ := ⟨.ofKey key, 0⟩

/-- A step of the tag checker. -/
def checking {α : Type} (s : Session (MacCheck φ) α) : Session (Sacrifice φ) α :=
  s.zoom (·.checker) fun m s => { s with checker := m }

/-- Opens shares, at most a batch in one message. -/
def openShares (c : Setting) (phase : String) (shares : List (Share φ φ)) :
    Session (Sacrifice φ) (List φ) := do
  let parts ← (batches c.batchSize shares).mapM fun part =>
    checking (MacCheck.openShares c.player phase part)
  pure parts.flatten

/-- A fresh stream for the next batch. -/
def batchStream (c : Setting) : Session (Sacrifice φ) CoinStream :=
  CoinToss.shared c.player

/-- The combination of shares with coefficients from a stream. -/
def combine (taus : List (Share φ φ)) (s : CoinStream) : Share φ φ :=
  let (coefficients, _) := samples taus.length s
  (taus.zip coefficients).foldl (fun acc (tau, r) => acc + tau.mulPublic r) 0

/-- Opens all check values and finds the first that is not zero.  If there is none,
the combination was opened wrongly. -/
def diagnose (c : Setting) (taus : List (Share φ φ)) : Session (Sacrifice φ) Nat := do
  let all ← openShares c "sacrifice diagnosis" taus
  match all.findIdx? (fun tau => decide (tau ≠ 0)) with
  | some j => pure j
  | none =>
    checking (MacCheck.check c.player)
    Session.fail (.cheat .tag)

/-- Opens a random combination of the check values; if it is zero, checks the tags
of everything opened, and otherwise finds the first bad value. -/
def checkZero (c : Setting) (taus : List (Share φ φ)) (s : CoinStream) :
    Session (Sacrifice φ) (Option Nat) := do
  let opened ← openShares c "sacrifice check" [combine taus s]
  if opened.headD 0 = 0 then
    checking (MacCheck.check c.player)
    pure none
  else
    let j ← diagnose c taus
    pure (some j)

/-- Fails at an item, after a last attempt to show the suspects. -/
def blame {α : Type} (c : Setting) (index : Nat) (suspects : List (Share φ φ)) :
    Session (Sacrifice φ) α := do
  let batch := (← get).batch
  let _ ← tryCatch (openShares c "sacrifice suspects" suspects) fun _ => pure []
  Session.fail (.sacrifice batch index)

/-- Pairs of a kept and a sacrificed item, by batches; an odd last item is dropped. -/
def pairings {α : Type} (c : Setting) (items : List α) : List (List (α × α)) :=
  let even := items.take (items.length / 2 * 2)
  (batches c.batchSize even).map fun batch =>
    let half := batch.length / 2
    (batch.take half).zip (batch.drop half)

/-- Accepts a batch. -/
def accept : Session (Sacrifice φ) Unit :=
  modify fun s => { s with batch := s.batch + 1 }

/-- Accepts a batch with the given check values if they are zero.  Otherwise fails at the
first that is not, whose index counts from `start`. -/
def conclude {α : Type} (c : Setting) (start : Nat) (taus : List (Share φ φ)) (s : CoinStream)
    (suspects : Nat → List (Share φ φ)) (result : α) : Session (Sacrifice φ) α := do
  match ← checkZero c taus s with
  | some j => blame c (start + j) (suspects j)
  | none =>
    accept
    pure result

/-- Checks one batch of triples after `kept` others and keeps its first half. -/
def tripleBatch (c : Setting) (kept : Nat) (pairs : List (Triple φ φ × Triple φ φ)) :
    Session (Sacrifice φ) (List (Triple φ φ)) := do
  let stream ← batchStream c
  let (t, stream) : φ × CoinStream := sample stream
  let masked := pairs.map (fun (k, s) => k.a.mulPublic t - s.a) ++
    pairs.map fun (k, s) => k.b - s.b
  let opened ← openShares c "sacrifice rho sigma" masked
  let rho := opened.take pairs.length
  let sigma := opened.drop pairs.length
  let taus := (pairs.zip (rho.zip sigma)).map fun ((k, s), (rho, sigma)) =>
    k.c.mulPublic t - s.c - s.a.mulPublic sigma - k.b.mulPublic rho
  let suspects j := match pairs[j]? with
    | some (k, s) => [k.a, k.b, k.c, s.a, s.b, s.c]
    | none => []
  conclude c kept taus stream suspects (pairs.map (·.1))

/-- Checks batch after batch and collects what is kept. -/
def eachBatch {α : Type}
    (check : Nat → List (α × α) → Session (Sacrifice φ) (List α)) :
    List α → List (List (α × α)) → Session (Sacrifice φ) (List α)
  | kept, [] => pure kept
  | kept, batch :: rest => do
      let good ← check kept.length batch
      eachBatch check (kept ++ good) rest

/-- Checks triples and returns the kept half. -/
def triples (c : Setting) (candidates : List (Triple φ φ)) :
    Session (Sacrifice φ) (List (Triple φ φ)) :=
  eachBatch (tripleBatch c) [] (pairings c candidates)

/-- A value and its square. -/
abbrev SquarePair (φ : Type) := Share φ φ × Share φ φ

/-- Checks one batch of squares after `kept` others and keeps its first half. -/
def squareBatch (c : Setting) (kept : Nat) (pairs : List (SquarePair φ × SquarePair φ)) :
    Session (Sacrifice φ) (List (SquarePair φ)) := do
  let stream ← batchStream c
  let (t, stream) : φ × CoinStream := sample stream
  let masked := pairs.map fun (k, s) => k.1.mulPublic t - s.1
  let rho ← openShares c "sacrifice rho" masked
  let taus := (pairs.zip rho).map fun ((k, s), rho) =>
    k.2.mulPublic (t * t) - s.2 - (k.1.mulPublic t + s.1).mulPublic rho
  let suspects j := match pairs[j]? with
    | some (k, s) => [k.1, k.2, s.1, s.2]
    | none => []
  conclude c kept taus stream suspects (pairs.map (·.1))

/-- Checks pairs of a value and its square and returns the kept half. -/
def squares (c : Setting) (candidates : List (SquarePair φ)) :
    Session (Sacrifice φ) (List (SquarePair φ)) :=
  eachBatch (squareBatch c) [] (pairings c candidates)

/-- A product to check: two factors, what the product has to be, and a checked
triple to check it with. -/
structure Product (φ : Type) where
  x : Share φ φ
  y : Share φ φ
  target : Share φ φ
  helper : Triple φ φ

/-- Checks one batch of products, the first of which has the given index. -/
def productBatch (c : Setting) (start : Nat) (items : List (Product φ)) :
    Session (Sacrifice φ) Unit := do
  let key := (← get).checker.key
  let stream ← batchStream c
  let masked := items.map (fun i => i.x - i.helper.a) ++ items.map fun i => i.y - i.helper.b
  let opened ← openShares c "product check" masked
  let eps := opened.take items.length
  let delta := opened.drop items.length
  let taus := (items.zip (eps.zip delta)).map fun (i, (eps, delta)) =>
    let product := i.helper.c + i.helper.b.mulPublic eps + i.helper.a.mulPublic delta
    product.addPublic (eps * delta) key c.player.me - i.target
  let suspects j := match items[j]? with
    | some i => [i.x, i.y]
    | none => []
  conclude c start taus stream suspects ()

/-- Checks batch after batch of products. -/
def eachProducts (c : Setting) : Nat → List (List (Product φ)) → Session (Sacrifice φ) Unit
  | _, [] => pure ()
  | start, batch :: rest => do
      productBatch c start batch
      eachProducts c (start + batch.length) rest

/-- Checks products with one triple each, of which there have to be enough. -/
def products (c : Setting) (factors : List (Share φ φ × Share φ φ)) (targets : List (Share φ φ))
    (helpers : List (Triple φ φ)) : Session (Sacrifice φ) Unit := do
  if helpers.length < factors.length then
    Session.fail (.length factors.length helpers.length)
  let items := (factors.zip (targets.zip helpers)).map fun (f, t, h) => ⟨f.1, f.2, t, h⟩
  eachProducts c 0 (batches c.amortize items)

/-- Checks that every item is its own square. -/
def bits (c : Setting) (items : List (Share φ φ)) (helpers : List (Triple φ φ)) :
    Session (Sacrifice φ) (List (Share φ φ)) := do
  products c (items.map fun b => (b, b)) items helpers
  pure items

/-- Checks that the product of every pair is one. -/
def inverses (c : Setting) (pairs : List (Share φ φ × Share φ φ)) (helpers : List (Triple φ φ)) :
    Session (Sacrifice φ) (List (Share φ φ × Share φ φ)) := do
  let key := (← get).checker.key
  let one : Share φ φ := (0 : Share φ φ).addPublic 1 key c.player.me
  products c pairs (pairs.map fun _ => one) helpers
  pure pairs

/-- Turns triples into pairs of a value and its inverse by opening their products;
those with product zero are skipped. -/
def inversesFromTriples (c : Setting) (items : List (Triple φ φ)) :
    Session (Sacrifice φ) (List (Share φ φ × Share φ φ)) := do
  let opened ← openShares c "inverse products" (items.map (·.c))
  checking (MacCheck.check c.player)
  pure <| (items.zip opened).filterMap fun (t, product) =>
    (ShareField.inverse? product).map fun inverse => (t.a, t.b.mulPublic inverse)

/-- The bit of a value whose square is known: one if the value is the root that is
found for its square, zero if it is the other root.  There is none for zero. -/
def bitFromSquare {ψ : Type} [RootField ψ] (c : Setting) (key half : ψ) (batch index : Nat)
    (a : Share ψ ψ) (square : ψ) : Except Error (Option (Share ψ ψ)) :=
  if square = 0 then .ok none
  else
    match (RootField.sqrt? square).bind ShareField.inverse? with
    | none => .error (.sacrifice batch index)
    | some inverse =>
      .ok (some (((a.mulPublic inverse).addPublic 1 key c.player.me).mulPublic half))

/-- Turns squares into random bits by opening them; squares of zero are skipped. -/
def bitsFromSquares {ψ : Type} [RootField ψ] (c : Setting) (items : List (SquarePair ψ)) :
    Session (Sacrifice ψ) (List (Share ψ ψ)) := do
  let key := (← get).checker.key
  let some half := ShareField.inverse? ((1 : ψ) + 1)
    | Session.fail (.misuse .evenCharacteristic)
  let opened ← openShares c "opened squares" (items.map (·.2))
  checking (MacCheck.check c.player)
  let batch := (← get).batch
  let found ← Session.check <| (items.zip opened).zipIdx.mapM fun ((item, square), j) =>
    bitFromSquare c key half batch j item.1 square
  pure (found.filterMap id)

end Sacrifice

end Beaver
