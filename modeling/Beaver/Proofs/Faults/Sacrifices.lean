import Beaver.Proofs.Batching
import Beaver.Proofs.Faults.Openings
import Beaver.Sacrifice

/-!
# Sacrifices with guards

The checks by sacrifice with every share computed in words, every list cut and every entry
looked up at an index that has to be there, and the indices and the number of batches
counted in a word.  The values that the parties open come from the peers, but as many of
them come as shares were opened; so all checks come to a result or to an error, whatever
arrives (`guards_triples`, `guards_squares`, `guards_bits`, `guards_inverses`,
`guards_inversesFromTriples`, `guards_bitsFromSquares`).
-/

namespace Beaver

open List

/-- Batches of a size that must not be zero. -/
def batches? {α : Type} (n : Nat) (xs : List α) : Option (List (List α)) :=
  if n = 0 then none else some (batches n xs)

/-- Both parts of a list that is cut at an index not past its end. -/
def splitAt? {α : Type} (n : Nat) (xs : List α) : Option (List α × List α) :=
  if n ≤ xs.length then some (xs.take n, xs.drop n) else none

/-- The part of a list between two indices, in order and not past its end. -/
def slice? {α : Type} (start stop : Nat) (xs : List α) : Option (List α) :=
  if start ≤ stop ∧ stop ≤ xs.length then some ((xs.drop start).take (stop - start)) else none

/-- The multiples below `n` of a step that must not be zero. -/
def stepsBelow? (step n : Nat) : Option (List Nat) :=
  if step = 0 then none else some ((range ((n + step - 1) / step)).map (step * ·))

variable {α β : Type} {xs : List α}

theorem length_batches_le {n : Nat} (hn : 0 < n) (xs : List α) :
    (batches n xs).length ≤ xs.length := by
  refine batches_induction (P := fun xs bs => bs.length ≤ xs.length) hn (Nat.le_refl _) ?_ xs
  intro xs hxs ih
  have hpos := length_pos_iff.mpr hxs
  rw [length_drop] at ih
  rw [length_cons]
  omega

/-- A list that is cut in the middle. -/
theorem splitAt?_half {n : Nat} (h : xs.length = n + n) :
    splitAt? n xs = some (xs.take n, xs.drop n) ∧ (xs.take n).length = n ∧
      (xs.drop n).length = n := by
  refine ⟨if_pos (by omega), ?_, ?_⟩
  · rw [length_take]
    omega
  · rw [length_drop]
    omega

/-- The entries that belong to a batch of the items. -/
theorem slice?_batch {ys : List β} {f : α → β} (hle : xs.length ≤ ys.length)
    (hys : ys.take xs.length = xs.map f) {start : Nat} (hstart : start ≤ xs.length) (size : Nat) :
    slice? start (min xs.length (start + size)) ys = some (((xs.drop start).take size).map f) := by
  rw [slice?, if_pos (by omega), map_take, map_drop, ← hys, drop_take,
    take_take]
  congr 2
  omega

theorem length_flatten_of_forall₂ {xs : List (List α)} {ys : List (List β)}
    (h : Forall₂ (fun x y => y.length = x.length) xs ys) :
    ys.flatten.length = xs.flatten.length := by
  induction h with
  | nil => rfl
  | cons hhead _ ih =>
    rw [flatten_cons, flatten_cons, length_append, length_append, hhead, ih]

namespace Sacrifice

open ShareRing
open Session (Guards Leaves)

variable {φ : Type} [ShareField φ] [WordField φ]

/-- The combination of shares, found in words. -/
def combine? (taus : List (Share φ φ)) (s : CoinStream) : Option (Share φ φ) :=
  (taus.zip (samples taus.length s).1).foldlM (fun acc p => do acc.add? (← p.1.mulPublic? p.2)) 0

/-- The check values of triples, with the opened values at their indices. -/
def tripleTaus? (t : φ) (keep sacrificed : List (Triple φ φ)) (rho sigma : List φ) :
    Option (List (Share φ φ)) :=
  (range keep.length).mapM fun j => do
    let k ← keep[j]?
    let s ← sacrificed[j]?
    let x ← (← k.c.mulPublic? t).sub? s.c
    let y ← x.sub? (← s.a.mulPublic? (← sigma[j]?))
    y.sub? (← k.b.mulPublic? (← rho[j]?))

/-- The check values of squares, with the opened values at their indices. -/
def squareTaus? (t : φ) (keep sacrificed : List (SquarePair φ)) (rho : List φ) :
    Option (List (Share φ φ)) :=
  (range keep.length).mapM fun j => do
    let k ← keep[j]?
    let s ← sacrificed[j]?
    let x ← (← k.2.mulPublic? (← WordRing.mul? t t)).sub? s.2
    let y ← (← k.1.mulPublic? t).add? s.1
    x.sub? (← y.mulPublic? (← rho[j]?))

/-- The check values of products, with the opened values and the targets at their indices. -/
def productTaus? (key : φ) (me start : Nat) (helpers : List (Triple φ φ))
    (targets : List (Share φ φ)) (eps delta : List φ) : Option (List (Share φ φ)) :=
  (range helpers.length).mapM fun j => do
    let h ← helpers[j]?
    let e ← eps[j]?
    let d ← delta[j]?
    let product ← (← h.c.add? (← h.b.mulPublic? e)).add? (← h.a.mulPublic? d)
    let target ← targets[← inWord? (start + j)]?
    (← product.addPublic? (← WordRing.mul? e d) key me).sub? target

namespace Guarded

/-- Opens shares, at most a batch in one message. -/
def openShares (c : Setting) (phase : String) (shares : List (Share φ φ)) :
    Session (Sacrifice φ) (List φ) := do
  let parts ← Session.total (batches? c.batchSize shares)
  let opened ← parts.mapM fun part => checking (MacCheck.Guarded.openShares c.player phase part)
  pure opened.flatten

/-- Opens all check values and finds the first that is not zero. -/
def diagnose (c : Setting) (taus : List (Share φ φ)) : Session (Sacrifice φ) Nat := do
  let all ← openShares c "sacrifice diagnosis" taus
  match all.findIdx? (fun tau => decide (tau ≠ 0)) with
  | some j => pure j
  | none =>
    checking (MacCheck.Guarded.check c.player)
    Session.fail (.cheat .tag)

/-- Opens a random combination of the check values. -/
def checkZero (c : Setting) (taus : List (Share φ φ)) (s : CoinStream) :
    Session (Sacrifice φ) (Option Nat) := do
  let combined ← Session.total (combine? taus s)
  let opened ← openShares c "sacrifice check" [combined]
  let first ← Session.total opened[0]?
  if first = 0 then
    checking (MacCheck.Guarded.check c.player)
    pure none
  else
    let j ← diagnose c taus
    pure (some j)

/-- Fails at an item, after a last attempt to show the suspects.  Their opening may fail,
but a fault in it is one. -/
def blame {α : Type} (c : Setting) (index : Nat) (suspects : List (Share φ φ)) :
    Session (Sacrifice φ) α := do
  let batch := (← get).batch
  let _ ← tryCatch (openShares c "sacrifice suspects" suspects) fun failure =>
    match failure with
    | .fault => throw .fault
    | .error _ => pure []
  Session.fail (.sacrifice batch index)

/-- Accepts a batch. -/
def accept : Session (Sacrifice φ) Unit := do
  let batch ← Session.total (inWord? ((← get).batch + 1))
  modify ({ · with batch })

/-- Accepts a batch if its check values are zero, and otherwise fails at the first that is
not. -/
def conclude {α : Type} (c : Setting) (start : Nat) (taus : List (Share φ φ)) (s : CoinStream)
    (suspects? : Nat → Option (List (Share φ φ))) (result : α) : Session (Sacrifice φ) α := do
  match ← checkZero c taus s with
  | some j =>
    let suspects ← Session.total (suspects? j)
    let index ← Session.total (inWord? (start + j))
    blame c index suspects
  | none =>
    accept
    pure result

/-- Checks the triples to keep against those that are sacrificed. -/
def tripleBatch (c : Setting) (kept : Nat) (keep sacrificed : List (Triple φ φ)) :
    Session (Sacrifice φ) (List (Triple φ φ)) := do
  let stream ← CoinToss.Guarded.shared c.player
  let (t, stream) : φ × CoinStream := sample stream
  let first ← Session.total ((keep.zip sacrificed).mapM fun p => do
    (← p.1.a.mulPublic? t).sub? p.2.a)
  let second ← Session.total ((keep.zip sacrificed).mapM fun p => p.1.b.sub? p.2.b)
  let opened ← openShares c "sacrifice rho sigma" (first ++ second)
  let (rho, sigma) ← Session.total (splitAt? keep.length opened)
  let taus ← Session.total (tripleTaus? t keep sacrificed rho sigma)
  let suspects? j := do
    let k ← keep[j]?
    let s ← sacrificed[j]?
    some [k.a, k.b, k.c, s.a, s.b, s.c]
  conclude c kept taus stream suspects? keep

/-- Checks the squares to keep against those that are sacrificed. -/
def squareBatch (c : Setting) (kept : Nat) (keep sacrificed : List (SquarePair φ)) :
    Session (Sacrifice φ) (List (SquarePair φ)) := do
  let stream ← CoinToss.Guarded.shared c.player
  let (t, stream) : φ × CoinStream := sample stream
  let masked ← Session.total ((keep.zip sacrificed).mapM fun p => do
    (← p.1.1.mulPublic? t).sub? p.2.1)
  let rho ← openShares c "sacrifice rho" masked
  let taus ← Session.total (squareTaus? t keep sacrificed rho)
  let suspects? j := do
    let k ← keep[j]?
    let s ← sacrificed[j]?
    some [k.1, k.2, s.1, s.2]
  conclude c kept taus stream suspects? keep

/-- Checks batch after batch, each cut in the middle, and collects what is kept. -/
def eachBatch {α : Type}
    (check : Nat → List α → List α → Session (Sacrifice φ) (List α)) :
    List α → List (List α) → Session (Sacrifice φ) (List α)
  | kept, [] => pure kept
  | kept, batch :: rest => do
      let halves ← Session.total (splitAt? (batch.length / 2) batch)
      let good ← check kept.length halves.1 halves.2
      eachBatch check (kept ++ good) rest

/-- Checks candidates by batches; an odd last one is dropped. -/
def halve {α : Type} (c : Setting)
    (check : Nat → List α → List α → Session (Sacrifice φ) (List α)) (candidates : List α) :
    Session (Sacrifice φ) (List α) := do
  let parts ← Session.total
    (batches? c.batchSize (candidates.take (candidates.length / 2 * 2)))
  eachBatch check [] parts

/-- Checks triples and returns the kept half. -/
def triples (c : Setting) (candidates : List (Triple φ φ)) :
    Session (Sacrifice φ) (List (Triple φ φ)) :=
  halve c (tripleBatch c) candidates

/-- Checks pairs of a value and its square and returns the kept half. -/
def squares (c : Setting) (candidates : List (SquarePair φ)) :
    Session (Sacrifice φ) (List (SquarePair φ)) :=
  halve c (squareBatch c) candidates

/-- Checks one batch of products, the first of which has the given index. -/
def productBatch (c : Setting) (start : Nat) (factors : List (Share φ φ × Share φ φ))
    (helpers : List (Triple φ φ)) (targets : List (Share φ φ)) : Session (Sacrifice φ) Unit := do
  let key := (← get).checker.key
  let stream ← CoinToss.Guarded.shared c.player
  let first ← Session.total ((factors.zip helpers).mapM fun p => p.1.1.sub? p.2.a)
  let second ← Session.total ((factors.zip helpers).mapM fun p => p.1.2.sub? p.2.b)
  let opened ← openShares c "product check" (first ++ second)
  let (eps, delta) ← Session.total (splitAt? factors.length opened)
  let taus ← Session.total (productTaus? key c.player.me start helpers targets eps delta)
  let suspects? j := do
    let f ← factors[j]?
    some [f.1, f.2]
  conclude c start taus stream suspects? ()

/-- Checks the batches of products that begin at the given indices. -/
def eachProducts (c : Setting) (factors : List (Share φ φ × Share φ φ))
    (helpers : List (Triple φ φ)) (targets : List (Share φ φ)) :
    List Nat → Session (Sacrifice φ) Unit
  | [] => pure ()
  | start :: rest => do
      let stop ← Session.total (inWord? (start + c.amortize))
      let fs ← Session.total (slice? start (min factors.length stop) factors)
      let hs ← Session.total (slice? start (min factors.length stop) helpers)
      productBatch c start fs hs targets
      eachProducts c factors helpers targets rest

/-- Checks products with one triple each, of which there have to be enough. -/
def products (c : Setting) (factors : List (Share φ φ × Share φ φ)) (targets : List (Share φ φ))
    (helpers : List (Triple φ φ)) : Session (Sacrifice φ) Unit := do
  if helpers.length < factors.length then
    Session.fail (.length factors.length helpers.length)
  let starts ← Session.total (stepsBelow? c.amortize factors.length)
  eachProducts c factors helpers targets starts

/-- Checks that every item is its own square. -/
def bits (c : Setting) (items : List (Share φ φ)) (helpers : List (Triple φ φ)) :
    Session (Sacrifice φ) (List (Share φ φ)) := do
  products c (items.map fun b => (b, b)) items helpers
  pure items

/-- Checks that the product of every pair is one. -/
def inverses (c : Setting) (pairs : List (Share φ φ × Share φ φ)) (helpers : List (Triple φ φ)) :
    Session (Sacrifice φ) (List (Share φ φ × Share φ φ)) := do
  let key := (← get).checker.key
  let one ← Session.total ((0 : Share φ φ).addPublic? 1 key c.player.me)
  products c pairs (pairs.map fun _ => one) helpers
  pure pairs

/-- Turns triples into pairs of a value and its inverse by opening their products. -/
def inversesFromTriples (c : Setting) (items : List (Triple φ φ)) :
    Session (Sacrifice φ) (List (Share φ φ × Share φ φ)) := do
  let opened ← openShares c "inverse products" (items.map (·.c))
  checking (MacCheck.Guarded.check c.player)
  let found ← Session.total ((items.zip opened).mapM fun p => do
    match ← WordField.invert? p.2 with
    | none => some none
    | some inverse => some (some (p.1.a, ← p.1.b.mulPublic? inverse)))
  pure (found.filterMap id)

/-- The inverse of a root, found in words, if there are both. -/
def rootInverse? {ψ : Type} [RootField ψ] [WordRootField ψ] (square : ψ) : Option (Option ψ) := do
  match ← WordRootField.root? square with
  | none => some none
  | some root => WordField.invert? root

/-- The bit of a value whose square is known. -/
def bitFromSquare {σ ψ : Type} [RootField ψ] [WordRootField ψ] (c : Setting) (key half : ψ)
    (batch index : Nat) (a : Share ψ ψ) (square : ψ) : Session σ (Option (Share ψ ψ)) := do
  if square = 0 then pure none
  else
    match ← Session.total (rootInverse? square) with
    | none => Session.fail (.sacrifice batch index)
    | some inverse =>
      let sign ← Session.total (a.mulPublic? inverse)
      let twice ← Session.total (sign.addPublic? 1 key c.player.me)
      let bit ← Session.total (twice.mulPublic? half)
      pure (some bit)

/-- Turns squares into random bits by opening them. -/
def bitsFromSquares {ψ : Type} [RootField ψ] [WordRootField ψ] (c : Setting)
    (items : List (SquarePair ψ)) : Session (Sacrifice ψ) (List (Share ψ ψ)) := do
  let key := (← get).checker.key
  let two ← Session.total (WordRing.add? (1 : ψ) 1)
  let some half ← Session.total (WordField.invert? two)
    | Session.fail (.misuse .evenCharacteristic)
  let opened ← openShares c "opened squares" (items.map (·.2))
  checking (MacCheck.Guarded.check c.player)
  let batch := (← get).batch
  let found ← (items.zip opened).zipIdx.mapM fun p =>
    bitFromSquare c key half batch p.2 p.1.1.1 p.1.2
  pure (found.filterMap id)

end Guarded

variable [LawfulShareRing φ] {s : Sacrifice φ} {c : Setting}

theorem Setting.batchSize_pos (hc : 0 < c.amortize) : 0 < c.batchSize := by
  rw [batchSize, Nat.pow_eq]
  omega

theorem combine?_eq (taus : List (Share φ φ)) (s : CoinStream) :
    combine? taus s = some (combine taus s) :=
  foldlM_eq_some fun p _ acc => by simp

variable {α ψ : Type} {taus : List (Share φ φ)} {stream : CoinStream}
variable {g : Nat → List α → List α → Session (Sacrifice φ) (List α)}
variable {p : Nat → List (α × α) → Session (Sacrifice φ) (List α)}

omit [ShareField φ] [WordField φ] [LawfulShareRing φ] in
/-- A step of the tag checker leaves the number of batches as it is. -/
theorem guards_checking {g p : Session (MacCheck φ) α} {post : α → Prop}
    (h : ∀ m, Guards m g p (fun a _ => post a) fun _ => True) :
    Guards s (checking g) (checking p) (fun a t => post a ∧ t.batch = s.batch)
      fun t => t.batch = s.batch :=
  .zoom ((h s.checker).mono (fun _ _ ha => ⟨ha, rfl⟩) fun _ _ => rfl)

theorem guards_checkTags :
    Guards s (checking (MacCheck.Guarded.check c.player)) (checking (MacCheck.check c.player))
      (fun _ t => True ∧ t.batch = s.batch) fun t => t.batch = s.batch :=
  guards_checking fun _ => MacCheck.guards_check

theorem tripleTaus?_eq {t : φ} {keep sacrificed : List (Triple φ φ)} {rho sigma : List φ}
    (hsacrificed : keep.length ≤ sacrificed.length) (hrho : rho.length = keep.length)
    (hsigma : sigma.length = keep.length) :
    tripleTaus? t keep sacrificed rho sigma
      = some (((keep.zip sacrificed).zip (rho.zip sigma)).map fun p =>
          p.1.1.c.mulPublic t - p.1.2.c - p.1.2.a.mulPublic p.2.2 - p.1.1.b.mulPublic p.2.1) := by
  refine mapM_range_eq_some ?_ fun j hj => ?_
  · simp only [length_map, length_zip]
    omega
  · have hs : j < sacrificed.length := by omega
    have hr : j < rho.length := by omega
    have hg : j < sigma.length := by omega
    simp [hj, hs, hr, hg]

theorem squareTaus?_eq {t : φ} {keep sacrificed : List (SquarePair φ)} {rho : List φ}
    (hsacrificed : keep.length ≤ sacrificed.length) (hrho : rho.length = keep.length) :
    squareTaus? t keep sacrificed rho
      = some (((keep.zip sacrificed).zip rho).map fun p =>
          p.1.1.2.mulPublic (t * t) - p.1.2.2
            - (p.1.1.1.mulPublic t + p.1.2.1).mulPublic p.2) := by
  refine mapM_range_eq_some ?_ fun j hj => ?_
  · simp only [length_map, length_zip]
    omega
  · have hs : j < sacrificed.length := by omega
    have hr : j < rho.length := by omega
    simp [hj, hs, hr]

/-- A check of a batch has guards, keeps one item of each pair and counts the batch. -/
def GuardsBatch {α : Type} (g : Nat → List α → List α → Session (Sacrifice φ) (List α))
    (p : Nat → List (α × α) → Session (Sacrifice φ) (List α)) : Prop :=
  ∀ kept keep sacrificed (t : Sacrifice φ), keep.length ≤ sacrificed.length →
    kept + keep.length < 2 ^ 64 → t.batch + 1 < 2 ^ 64 →
    Guards t (g kept keep sacrificed) (p kept (keep.zip sacrificed))
      (fun good u => good.length = keep.length ∧ u.batch = t.batch + 1) fun u => u.batch = t.batch

omit [ShareField φ] [WordField φ] [LawfulShareRing φ] in
/-- **Batch after batch.**  If a check of a batch has no fault, neither has a check of all. -/
theorem guards_eachBatch (h : GuardsBatch g p) {kept : List α} {parts : List (List α)}
    (hindex : kept.length + parts.flatten.length < 2 ^ 64)
    (hbatch : s.batch + parts.length < 2 ^ 64) :
    Leaves s (Guarded.eachBatch g kept parts)
      (eachBatch p kept (parts.map fun batch =>
        (batch.take (batch.length / 2)).zip (batch.drop (batch.length / 2))))
      fun t => t.batch ≤ s.batch + parts.length := by
  induction parts generalizing kept s with
  | nil => exact .pure (Nat.le_refl _)
  | cons batch parts ih =>
    rw [flatten_cons, length_append] at hindex
    rw [length_cons] at hbatch ⊢
    have hkeep : (batch.take (batch.length / 2)).length = batch.length / 2 := by
      rw [length_take]
      omega
    have hcut : (batch.take (batch.length / 2)).length
        ≤ (batch.drop (batch.length / 2)).length := by
      rw [hkeep, length_drop]
      omega
    refine .guard (if_pos (Nat.div_le_self _ _)) ?_
    refine ((h _ _ _ s hcut (by omega) (by omega)).mono (fun _ _ hu => hu) fun u hu => ?_).andThen
      fun good t hgood => ?_
    · omega
    · obtain ⟨hgood, ht⟩ := hgood
      have hindex' : (kept ++ good).length + parts.flatten.length < 2 ^ 64 := by
        rw [length_append]
        omega
      refine (ih hindex' (show t.batch + parts.length < 2 ^ 64 by omega)).mono fun u hu => ?_
      omega

section Products

variable {items : List (Product φ)} {targets : List (Share φ φ)}

theorem productTaus?_eq {key : φ} {me start : Nat} {eps delta : List φ}
    (htargets : ∀ j < items.length, targets[start + j]? = items[j]?.map (·.target))
    (hindex : start + items.length < 2 ^ 64) (heps : eps.length = items.length)
    (hdelta : delta.length = items.length) :
    productTaus? key me start (items.map (·.helper)) targets eps delta
      = some ((items.zip (eps.zip delta)).map fun p =>
          (p.1.helper.c + p.1.helper.b.mulPublic p.2.1 + p.1.helper.a.mulPublic p.2.2).addPublic
            (p.2.1 * p.2.2) key me - p.1.target) := by
  refine mapM_range_eq_some ?_ fun j hj => ?_
  · simp only [length_map, length_zip]
    omega
  · rw [length_map] at hj
    have he : j < eps.length := by omega
    have hd : j < delta.length := by omega
    have hword : inWord? (start + j) = some (start + j) := inWord?_eq (by omega)
    simp [hj, he, hd, hword, htargets j hj]

end Products

section Checks

variable (hc : 0 < c.amortize)
include hc

/-- One value is opened for each share. -/
theorem guards_openShares {phase : String} {shares : List (Share φ φ)} :
    Guards s (Guarded.openShares c phase shares) (openShares c phase shares)
      (fun values t => values.length = shares.length ∧ t.batch = s.batch)
      fun t => t.batch = s.batch := by
  have hsize := Setting.batchSize_pos hc
  have hparts : Guards s
      ((batches c.batchSize shares).mapM fun part =>
        checking (MacCheck.Guarded.openShares c.player phase part))
      ((batches c.batchSize shares).mapM fun part =>
        checking (MacCheck.openShares c.player phase part))
      (fun opened t => Forall₂ (fun part values => values.length = part.length)
        (batches c.batchSize shares) opened ∧ t.batch = s.batch) fun t => t.batch = s.batch := by
    refine .mapM (fun part _ t ht => ?_) rfl
    rw [← ht]
    exact guards_checking fun _ => MacCheck.guards_openShares
  refine .guard (if_neg (Nat.ne_of_gt hsize)) (hparts.andThen fun opened t ht => .pure ⟨?_, ht.2⟩)
  rw [length_flatten_of_forall₂ ht.1, flatten_batches hsize]

theorem guards_diagnose :
    Guards s (Guarded.diagnose c taus) (diagnose c taus)
      (fun j t => j < taus.length ∧ t.batch = s.batch) fun t => t.batch = s.batch := by
  refine (guards_openShares hc).andThen fun all t ⟨hlength, hbatch⟩ => ?_
  cases hfound : all.findIdx? fun tau => decide (tau ≠ 0) with
  | some j =>
    obtain ⟨hj, -⟩ := findIdx?_eq_some_iff_getElem.mp hfound
    exact .pure ⟨hlength ▸ hj, hbatch⟩
  | none =>
    rw [← hbatch]
    exact guards_checkTags.andThen fun _ u hu => .fail hu.2

/-- If the check values are not all zero, one of them is found. -/
theorem guards_checkZero :
    Guards s (Guarded.checkZero c taus stream) (checkZero c taus stream)
      (fun found t => (∀ j ∈ found, j < taus.length) ∧ t.batch = s.batch)
      fun t => t.batch = s.batch := by
  refine .guard (combine?_eq taus stream) ?_
  refine (guards_openShares hc).andThen fun opened t ⟨hlength, hbatch⟩ => ?_
  obtain ⟨first, rfl⟩ := length_eq_one_iff.mp hlength
  rw [← hbatch]
  refine .guard rfl (.ite (fun _ => ?_) fun _ => ?_)
  · refine guards_checkTags.andThen fun _ u hu => .pure ⟨fun j hj => ?_, hu.2⟩
    cases hj
  · refine (guards_diagnose hc).andThen fun j u hu => .pure ⟨fun i hi => ?_, hu.2⟩
    cases hi
    exact hu.1

theorem guards_blame {index : Nat} {suspects : List (Share φ φ)}
    {post : α → Sacrifice φ → Prop} :
    Guards s (Guarded.blame c index suspects) (blame c index suspects) post
      fun t => t.batch = s.batch := by
  have hshow : Guards s
      (tryCatch (Guarded.openShares c "sacrifice suspects" suspects) fun failure =>
        match failure with
        | .fault => throw .fault
        | .error _ => pure [])
      (tryCatch (openShares c "sacrifice suspects" suspects) fun _ => pure [])
      (fun _ t => t.batch = s.batch) fun t => t.batch = s.batch :=
    .tryCatch ((guards_openShares hc).mono (fun _ _ h => h.2) fun _ h => h) fun _ _ ht => .pure ht
  exact .getThen (hshow.andThen fun _ t ht => .fail ht)

/-- **The end of a batch.**  It is accepted, or the item with the first bad check value is
named. -/
theorem guards_conclude {start n : Nat} {suspects? : Nat → Option (List (Share φ φ))}
    {suspects : Nat → List (Share φ φ)} {result : α}
    (htaus : taus.length = n) (hsuspects : ∀ j < n, suspects? j = some (suspects j))
    (hindex : start + n < 2 ^ 64) (hbatch : s.batch + 1 < 2 ^ 64) :
    Guards s (Guarded.conclude c start taus stream suspects? result)
      (conclude c start taus stream suspects result)
      (fun a t => a = result ∧ t.batch = s.batch + 1) fun t => t.batch = s.batch := by
  refine (guards_checkZero hc).andThen fun found t ⟨hfound, ht⟩ => ?_
  cases found with
  | some j =>
    have hj := htaus ▸ hfound j rfl
    refine .guard (hsuspects j hj) (.guard (inWord?_eq (by omega)) ?_)
    rw [← ht]
    exact guards_blame hc
  | none =>
    have haccept : Guards t Guarded.accept accept (fun _ u => u.batch = s.batch + 1)
        fun u => u.batch = s.batch :=
      .getThen (.guard (inWord?_eq (by omega)) (.modify (congrArg (· + 1) ht)))
    exact haccept.andThen fun _ u hu => .pure ⟨rfl, hu⟩

/-- Triples of a batch, of which at least as many are sacrificed as are kept. -/
theorem guards_tripleBatch : GuardsBatch (φ := φ) (Guarded.tripleBatch c) (tripleBatch c) := by
  intro kept keep sacrificed s hlength hindex hbatch
  have hpairs : (keep.zip sacrificed).length = keep.length := by
    rw [length_zip, Nat.min_eq_left hlength]
  have hfirst : ∀ x : φ, (keep.zip sacrificed).mapM (fun p => do
      (← p.1.a.mulPublic? x).sub? p.2.a)
        = some ((keep.zip sacrificed).map fun p => p.1.a.mulPublic x - p.2.a) :=
    fun x => mapM_eq_some fun p _ => by simp
  have hsecond : (keep.zip sacrificed).mapM (fun p => p.1.b.sub? p.2.b)
      = some ((keep.zip sacrificed).map fun p => p.1.b - p.2.b) :=
    mapM_eq_some fun p _ => by simp
  refine .bind (CoinToss.guards_shared (fun stream => .guard (hfirst _) (.guard hsecond ?_)) rfl)
  refine (guards_openShares hc).andThen fun opened u ⟨hopened, hu⟩ => ?_
  rw [length_append, length_map, length_map, hpairs] at hopened
  obtain ⟨hsplit, hrho, hsigma⟩ := splitAt?_half hopened
  refine .guard hsplit (.guard (tripleTaus?_eq hlength hrho hsigma) ?_)
  rw [← hu, hpairs, map_fst_zip hlength]
  refine (guards_conclude hc ?_ (fun j hj => ?_) hindex (by omega)).mono
    (fun good v h => ⟨congrArg length h.1, h.2⟩) fun _ h => h
  · simp only [length_map, length_zip, hrho, hsigma]
    omega
  · have hj' : j < sacrificed.length := by omega
    simp [hj, hj']

/-- Squares of a batch, of which at least as many are sacrificed as are kept. -/
theorem guards_squareBatch : GuardsBatch (φ := φ) (Guarded.squareBatch c) (squareBatch c) := by
  intro kept keep sacrificed s hlength hindex hbatch
  have hpairs : (keep.zip sacrificed).length = keep.length := by
    rw [length_zip, Nat.min_eq_left hlength]
  have hmasked : ∀ x : φ, (keep.zip sacrificed).mapM (fun p => do
      (← p.1.1.mulPublic? x).sub? p.2.1)
        = some ((keep.zip sacrificed).map fun p => p.1.1.mulPublic x - p.2.1) :=
    fun x => mapM_eq_some fun p _ => by simp
  refine .bind (CoinToss.guards_shared (fun stream => .guard (hmasked _) ?_) rfl)
  refine (guards_openShares hc).andThen fun rho u ⟨hrho, hu⟩ => ?_
  rw [length_map, hpairs] at hrho
  refine .guard (squareTaus?_eq hlength hrho) ?_
  rw [← hu, map_fst_zip hlength]
  refine (guards_conclude hc ?_ (fun j hj => ?_) hindex (by omega)).mono
    (fun good v h => ⟨congrArg length h.1, h.2⟩) fun _ h => h
  · simp only [length_map, length_zip, hrho]
    omega
  · have hj' : j < sacrificed.length := by omega
    simp [hj, hj']

omit [ShareField φ] [WordField φ] [LawfulShareRing φ] in
/-- Candidates in batches, of which a half is kept. -/
theorem guards_halve (h : GuardsBatch g p) {candidates : List α}
    (hroom : s.batch + candidates.length < 2 ^ 64) :
    Leaves s (Guarded.halve c g candidates) (eachBatch p [] (pairings c candidates))
      fun t => t.batch ≤ s.batch + candidates.length := by
  have hsize := Setting.batchSize_pos hc
  have hparts := length_batches_le hsize (candidates.take (candidates.length / 2 * 2))
  have htake := length_take_le (candidates.length / 2 * 2) candidates
  have hall := congrArg length
    (flatten_batches hsize (candidates.take (candidates.length / 2 * 2)))
  refine .guard (if_neg (Nat.ne_of_gt hsize)) ?_
  refine (guards_eachBatch h (by rw [hall, length_nil]; omega) (by omega)).mono fun u hu => ?_
  omega

/-- **Checking triples never faults**, whatever arrives. -/
theorem guards_triples {candidates : List (Triple φ φ)}
    (hroom : s.batch + candidates.length < 2 ^ 64) :
    Leaves s (Guarded.triples c candidates) (triples c candidates)
      fun t => t.batch ≤ s.batch + candidates.length :=
  guards_halve hc (guards_tripleBatch hc) hroom

/-- **Checking squares never faults**, whatever arrives. -/
theorem guards_squares {candidates : List (SquarePair φ)}
    (hroom : s.batch + candidates.length < 2 ^ 64) :
    Leaves s (Guarded.squares c candidates) (squares c candidates)
      fun t => t.batch ≤ s.batch + candidates.length :=
  guards_halve hc (guards_squareBatch hc) hroom

variable {items : List (Product φ)} {targets : List (Share φ φ)} {helpers : List (Triple φ φ)}

theorem guards_productBatch {start : Nat}
    (htargets : ∀ j < items.length, targets[start + j]? = items[j]?.map (·.target))
    (hindex : start + items.length < 2 ^ 64) (hbatch : s.batch + 1 < 2 ^ 64) :
    Guards s
      (Guarded.productBatch c start (items.map fun i => (i.x, i.y)) (items.map (·.helper)) targets)
      (productBatch c start items) (fun _ t => t.batch = s.batch + 1) fun t => t.batch = s.batch := by
  have hzip : (items.map fun i => (i.x, i.y)).zip (items.map (·.helper))
      = items.map fun i => ((i.x, i.y), i.helper) := zip_map'
  have hfirst : ((items.map fun i => (i.x, i.y)).zip (items.map (·.helper))).mapM
      (fun p => p.1.1.sub? p.2.a) = some (items.map fun i => i.x - i.helper.a) := by
    rw [hzip, mapM_map]
    exact mapM_eq_some fun i _ => by simp
  have hsecond : ((items.map fun i => (i.x, i.y)).zip (items.map (·.helper))).mapM
      (fun p => p.1.2.sub? p.2.b) = some (items.map fun i => i.y - i.helper.b) := by
    rw [hzip, mapM_map]
    exact mapM_eq_some fun i _ => by simp
  refine .getThen (.bind (CoinToss.guards_shared (fun stream => ?_) rfl))
  refine .guard hfirst (.guard hsecond ?_)
  refine (guards_openShares hc).andThen fun opened u ⟨hopened, hu⟩ => ?_
  rw [length_append, length_map, length_map] at hopened
  rw [length_map]
  obtain ⟨hsplit, heps, hdelta⟩ := splitAt?_half hopened
  refine .guard hsplit (.guard (productTaus?_eq htargets hindex heps hdelta) ?_)
  rw [← hu]
  refine (guards_conclude hc ?_ (fun j hj => ?_) hindex (by omega)).mono (fun _ v h => h.2)
    fun _ h => h
  · simp only [length_map, length_zip, heps, hdelta]
    omega
  · simp [hj]

/-- The batches of products, from batch `b` on. -/
theorem guards_eachProducts (hword : c.amortize < 2 ^ 64)
    {helpers : List (Triple φ φ)} (hhelpers : items.length ≤ helpers.length)
    (htake : helpers.take items.length = items.map (·.helper)) (hroom : items.length < memoryLimit)
    {b m : Nat} (hcount : b + m = (items.length + c.amortize - 1) / c.amortize)
    (hbatch : s.batch + m < 2 ^ 64) :
    Leaves s
      (Guarded.eachProducts c (items.map fun i => (i.x, i.y)) helpers (items.map (·.target))
        ((range' b m).map (c.amortize * ·)))
      (eachProducts c (c.amortize * b)
        ((range' b m).map fun i => (items.drop (c.amortize * i)).take c.amortize))
      fun t => t.batch ≤ s.batch + m := by
  rw [memoryLimit, Nat.pow_eq] at hroom
  -- a batch that is there begins before the end
  have hbegin : ∀ i, i < (items.length + c.amortize - 1) / c.amortize →
      c.amortize * i < items.length := by
    intro i hi
    have hle := (Nat.le_div_iff_mul_le hc).mp (Nat.succ_le_of_lt hi)
    rw [Nat.succ_mul, Nat.mul_comm] at hle
    omega
  induction m generalizing b s with
  | zero => exact .pure (Nat.le_refl _)
  | succ m ih =>
    have hstart : c.amortize * b < items.length := hbegin b (by omega)
    have hstop : c.amortize * b + c.amortize < 2 ^ 64 := by
      rcases Nat.eq_zero_or_pos b with rfl | hb
      · omega
      · have hle : c.amortize ≤ c.amortize * b := Nat.le_mul_of_pos_right _ hb
        omega
    rw [range'_succ, map_cons, map_cons]
    refine .guard (inWord?_eq hstop) ?_
    rw [length_map]
    refine .guard (slice?_batch (Nat.le_of_eq (length_map _).symm)
      (take_of_length_le (Nat.le_of_eq (length_map _))) (Nat.le_of_lt hstart) _) ?_
    refine .guard (slice?_batch hhelpers htake (Nat.le_of_lt hstart) _) ?_
    have hlength : ((items.drop (c.amortize * b)).take c.amortize).length
        = min c.amortize (items.length - c.amortize * b) := by
      rw [length_take, length_drop]
    have htargets : ∀ j < ((items.drop (c.amortize * b)).take c.amortize).length,
        (items.map (·.target))[c.amortize * b + j]?
          = ((items.drop (c.amortize * b)).take c.amortize)[j]?.map (·.target) := by
      intro j hj
      have hj' : j < c.amortize := by omega
      simp [hj']
    have hfirst := guards_productBatch (s := s) hc htargets (by omega) (by omega)
    refine (hfirst.mono (fun _ _ h => h) fun t ht => ?_).andThen fun _ t ht => ?_
    · omega
    · rcases Nat.eq_zero_or_pos m with rfl | hm
      · exact .pure (Nat.le_of_eq ht)
      · -- only the last batch can be smaller, so the next one begins where it should
        have hnext : c.amortize * b + ((items.drop (c.amortize * b)).take c.amortize).length
            = c.amortize * (b + 1) := by
          have hlast := hbegin (b + 1) (by omega)
          rw [Nat.mul_succ] at hlast ⊢
          omega
        rw [hnext]
        refine (ih (s := t) (b := b + 1) (by omega) (by omega)).mono fun u hu => ?_
        omega

theorem guards_products (hword : c.amortize < 2 ^ 64)
    {factors : List (Share φ φ × Share φ φ)} (htargets : targets.length = factors.length)
    (hroom : factors.length < memoryLimit) (hbatch : s.batch + factors.length < 2 ^ 64) :
    Leaves s (Guarded.products c factors targets helpers) (products c factors targets helpers)
      fun t => t.batch ≤ s.batch + factors.length := by
  rw [Guarded.products, products]
  by_cases hfew : helpers.length < factors.length
  · rw [if_pos hfew, if_pos hfew]
    exact .bind (.fail (Nat.le_add_right _ _))
  · rw [if_neg hfew, if_neg hfew]
    let items : List (Product φ) := (factors.zip (targets.zip helpers)).map fun p =>
      ⟨p.1.1, p.1.2, p.2.1, p.2.2⟩
    have hlength : items.length = factors.length := by
      simp only [items, length_map, length_zip]
      omega
    have hfactors : items.map (fun i => (i.x, i.y)) = factors := by
      refine ext_getElem (by rw [length_map, hlength]) fun j _ _ => ?_
      simp [items]
    have htarget : items.map (·.target) = targets := by
      refine ext_getElem (by rw [length_map, hlength, htargets]) fun j _ _ => ?_
      simp [items]
    have hhelper : helpers.take items.length = items.map (·.helper) := by
      refine ext_getElem ?_ fun j _ _ => ?_
      · have hmap : (items.map (·.helper)).length = items.length := length_map _
        rw [length_take, hmap]
        omega
      · simp [items]
    have hbatches := batches_eq_map_range hc items
    have hcount : (items.length + c.amortize - 1) / c.amortize ≤ items.length := by
      have hle := length_batches_le hc items
      rwa [hbatches, length_map, length_range] at hle
    have hall := guards_eachProducts (s := s) (b := 0) hc hword (by omega) hhelper
      (hlength ▸ hroom) (Nat.zero_add _) (by omega)
    rw [hfactors, htarget, ← range_eq_range', ← hbatches, hlength, Nat.mul_zero] at hall
    rw [hlength] at hcount
    refine .guard (if_neg (Nat.ne_of_gt hc)) (hall.mono fun u hu => ?_)
    omega

/-- **Checking bits never faults**, whatever arrives. -/
theorem guards_bits (hword : c.amortize < 2 ^ 64) {items : List (Share φ φ)}
    (hroom : items.length < memoryLimit) (hbatch : s.batch + items.length < 2 ^ 64) :
    Leaves s (Guarded.bits c items helpers) (bits c items helpers)
      fun t => t.batch ≤ s.batch + items.length := by
  have hlength : (items.map fun b => (b, b)).length = items.length := length_map _
  rw [← hlength] at hroom hbatch ⊢
  exact (guards_products hc hword hlength.symm hroom hbatch).andThen fun _ _ h => .pure h

/-- **Checking inverses never faults**, whatever arrives. -/
theorem guards_inverses (hword : c.amortize < 2 ^ 64)
    {pairs : List (Share φ φ × Share φ φ)} (hroom : pairs.length < memoryLimit)
    (hbatch : s.batch + pairs.length < 2 ^ 64) :
    Leaves s (Guarded.inverses c pairs helpers) (inverses c pairs helpers)
      fun t => t.batch ≤ s.batch + pairs.length := by
  refine .getThen (.guard (Share.addPublic?_eq _ _ _ _) ?_)
  exact (guards_products hc hword (length_map _) hroom hbatch).andThen fun _ _ h => .pure h

/-- **Making inverses never faults**, whatever arrives. -/
theorem guards_inversesFromTriples {items : List (Triple φ φ)} :
    Leaves s (Guarded.inversesFromTriples c items) (inversesFromTriples c items)
      fun t => t.batch = s.batch := by
  refine (guards_openShares hc).andThen fun opened t ht => ?_
  rw [← ht.2]
  refine guards_checkTags.andThen fun _ u hu => ?_
  have hinverses : ∀ p ∈ items.zip opened, (do
      match ← WordField.invert? p.2 with
      | none => some none
      | some inverse => some (some (p.1.a, ← p.1.b.mulPublic? inverse)))
        = some ((ShareField.inverse? p.2).map fun inverse => (p.1.a, p.1.b.mulPublic inverse)) := by
    intro p _
    rw [WordField.invert?_eq]
    cases ShareField.inverse? p.2 with
    | none => rfl
    | some inverse => simp
  refine .guard (mapM_eq_some hinverses) ?_
  rw [filterMap_map]
  exact .pure hu.2

end Checks

theorem rootInverse?_eq [RootField ψ] [WordRootField ψ] [LawfulShareRing ψ] (square : ψ) :
    Guarded.rootInverse? square = some ((RootField.sqrt? square).bind ShareField.inverse?) := by
  rw [Guarded.rootInverse?, WordRootField.root?_eq]
  cases RootField.sqrt? square with
  | none => rfl
  | some root => exact WordField.invert?_eq root

theorem guarded_bitFromSquare {σ : Type} [RootField ψ] [WordRootField ψ] [LawfulShareRing ψ]
    (c : Setting) (key half : ψ) (batch index : Nat) (a : Share ψ ψ) (square : ψ) :
    (Guarded.bitFromSquare c key half batch index a square : Session σ (Option (Share ψ ψ)))
      = Session.check (bitFromSquare c key half batch index a square) := by
  rw [Guarded.bitFromSquare, bitFromSquare]
  by_cases hzero : square = 0
  · rw [if_pos hzero, if_pos hzero]
    rfl
  · rw [if_neg hzero, if_neg hzero, rootInverse?_eq]
    cases (RootField.sqrt? square).bind ShareField.inverse? with
    | none => rfl
    | some inverse =>
      simp only [Share.mulPublic?_eq, Share.addPublic?_eq]
      rfl

/-- **Making bits never faults**, whatever arrives. -/
theorem guards_bitsFromSquares [RootField ψ] [WordRootField ψ] [LawfulShareRing ψ] {s : Sacrifice ψ}
    (hc : 0 < c.amortize) {items : List (SquarePair ψ)} :
    Leaves s (Guarded.bitsFromSquares c items) (bitsFromSquares c items)
      fun t => t.batch = s.batch := by
  refine .getThen (.guard (WordRing.add?_eq _ _) (.guard (WordField.invert?_eq _) ?_))
  cases ShareField.inverse? ((1 : ψ) + 1) with
  | none => exact .fail rfl
  | some half =>
    refine (guards_openShares hc).andThen fun opened t ht => ?_
    rw [← ht.2]
    refine guards_checkTags.andThen fun _ u hu => ?_
    refine .getThen ?_
    simp only [guarded_bitFromSquare, Session.mapM_check]
    exact .bind (.check (fun _ _ => .pure hu.2) hu.2)

end Sacrifice

end Beaver
