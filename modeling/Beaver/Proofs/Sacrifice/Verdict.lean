import Mathlib
import Beaver.Proofs.Ring.Instances
import Beaver.Proofs.Sacrifice.Batches

/-!
# What a sacrifice decides

Batch after batch, the parties keep the first half or fail together.  The stream of each batch
is known in advance, and with it the verdict (`Sacrifice.triples_decide`).
-/

namespace Beaver

open List hiding sum
open ShareRing

namespace Sacrifice

section Positions

variable {α β : Type} {A m : Nat}

/-- The pairs of batch number `b` of `m` items. -/
def batchAt (A m : Nat) (x : Nat → α) (b : Nat) : List (α × α) :=
  (range (min A (m / 2 - A * b))).map fun j =>
    (x (2 * A * b + j), x (2 * A * b + min A (m / 2 - A * b) + j))

/-- The pairs of all batches of `m` items. -/
def batchesOf (A m : Nat) (x : Nat → α) : List (List (α × α)) :=
  (range ((m / 2 + A - 1) / A)).map (batchAt A m x)

theorem batchesOf_map (x : Nat → α) (f : α → β) :
    batchesOf A m (fun l => f (x l)) = (batchesOf A m x).map (·.map fun q => (f q.1, f q.2)) := by
  rw [batchesOf, batchesOf, map_map]
  refine map_congr_left fun b _ => ?_
  simp [batchAt]

variable {x : Nat → α} {pairs : List (α × α)} {b : Nat}

/-- What holds of the `m` items holds of both halves of a batch. -/
theorem forall_mem_batchesOf {P : α → Prop} (h : ∀ l < m, P (x l))
    (hpairs : pairs ∈ batchesOf A m x) : ∀ q ∈ pairs, P q.1 ∧ P q.2 := by
  intro q hq
  obtain ⟨b, -, rfl⟩ := mem_map.mp hpairs
  obtain ⟨j, hj, rfl⟩ := mem_map.mp hq
  have hj := mem_range.mp hj
  rw [Nat.mul_assoc]
  exact ⟨h _ (by omega), h _ (by omega)⟩

/-- A bound that a list does not reach does not change its batches. -/
theorem batches_min {n bound : Nat} {xs : List α} (h : xs.length ≤ bound) :
    batches (min n bound) xs = batches n xs := by
  rcases Nat.le_total n bound with hle | hle
  · rw [Nat.min_eq_left hle]
  · rw [Nat.min_eq_right hle]
    by_cases hxs : xs = []
    · rw [hxs, batches_nil, batches_nil]
    · rw [batches_of_length_le hxs h, batches_of_length_le hxs (h.trans hle)]

variable (hA : 0 < A)

include hA

theorem getElem?_batchesOf (x : Nat → α) (hb : A * b < m / 2) :
    (batchesOf A m x)[b]? = some (batchAt A m x b) := by
  have hlt : b < (m / 2 + A - 1) / A := by
    rw [Nat.lt_div_iff_mul_lt hA, Nat.mul_comm b A]
    omega
  simp [batchesOf, hlt]

/-- **Which items are paired.** -/
theorem pairings_range (hm : m < 2 ^ 64) (p : Player) (x : Nat → α) :
    pairings ⟨p, A⟩ ((range m).map x) = batchesOf A m x := by
  have heven : ((range m).map x).take (m / 2 * 2) = (range (m / 2 * 2)).map x := by
    rw [← map_take, take_range, Nat.min_eq_left (by omega)]
  have hbatches : batches (Setting.mk p A).batchSize ((range (m / 2 * 2)).map x)
      = batches (2 * A) ((range (m / 2 * 2)).map x) := by
    refine batches_min ?_
    rw [length_map, length_range, Nat.pow_eq]
    omega
  have hcount : (m / 2 * 2 + 2 * A - 1) / (2 * A) = (m / 2 + A - 1) / A := by
    rw [← Nat.div_div_eq_div_mul]
    congr 1
    omega
  simp only [pairings, length_map, length_range, heven, hbatches]
  rw [batches_eq_map_range (by omega), length_map, length_range, hcount, map_map]
  refine map_congr_left fun b _ => ?_
  -- a batch of an even number of items has as many first as second halves
  have hlength : min (2 * A) (m / 2 * 2 - 2 * A * b) = 2 * min A (m / 2 - A * b) := by
    rw [Nat.mul_assoc]
    omega
  have hhalf : 2 * min A (m / 2 - A * b) / 2 = min A (m / 2 - A * b) := by omega
  simp only [Function.comp, take_drop_map_range, hlength, length_map, length_range, hhalf]
  rw [batchAt]
  generalize min A (m / 2 - A * b) = k
  apply ext_getElem
  · simp
    omega
  · intro j _ _
    simp [Nat.add_assoc]

/-- **What is kept**, in order. -/
theorem kept_batchesOf (x : Nat → α) : (batchesOf A m x).flatten.map (·.1)
    = (range (m / 2)).map fun l => x (2 * A * (l / A) + l % A) := by
  have hflat := flatten_batches hA ((range (m / 2)).map fun l => x (2 * A * (l / A) + l % A))
  rw [← hflat, batches_eq_map_range hA, map_flatten, batchesOf, map_map, length_map,
    length_range]
  congr 1
  refine map_congr_left fun b _ => ?_
  rw [take_drop_map_range, Function.comp, batchAt, map_map]
  refine map_congr_left fun j hj => ?_
  have hj : j < A := by
    have hlt := mem_range.mp hj
    omega
  have hdiv : (A * b + j) / A = b := by
    rw [Nat.mul_add_div hA, Nat.div_eq_of_lt hj, Nat.add_zero]
  have hmod : (A * b + j) % A = j := by
    rw [Nat.mul_add_mod, Nat.mod_eq_of_lt hj]
  simp only [Function.comp, hdiv, hmod]

/-- All batches before a later one are full. -/
theorem length_before (x : Nat → α) (hb : A * b < m / 2) :
    (((batchesOf A m x).take b).map length).sum = A * b := by
  have hle : b ≤ (m / 2 + A - 1) / A := by
    rw [Nat.le_div_iff_mul_le hA, Nat.mul_comm b A]
    omega
  refine sum_length_take hle fun c hc => ?_
  have hlt : A * (c + 1) ≤ A * b := Nat.mul_le_mul_left A hc
  rw [Nat.mul_succ] at hlt
  rw [batchAt, length_map, length_range, Nat.min_eq_left (by omega)]

end Positions

section Decision

variable {φ : Type} [ShareField φ] [LawfulShareRing φ] {n A : Nat} (hA : 0 < A)

include hA

/-- **Pairs are decided by what is compared in them.**  If the batches are decided by the values
of their pairs, then these are decided one after the other, and the first halves are kept. -/
theorem pairs_decided {α : Type} {coins : List Coins} {ledger : Ledger φ}
    (hledger : ledger.Sound coins.length) {N : Nat} (hN : N < 2 ^ 64) (x : Nat → Nat → α)
    {check : Nat → Nat → List (α × α) → Session (Sacrifice φ) (List α)}
    {value : CoinStream → (Nat → α) × (Nat → α) → φ} {rest : CoinStream → CoinStream}
    (h : ∀ pairs ∈ batchesOf A N x, Decides coins.length ledger.key (fun s => pairs.map (value s))
      rest (fun start i => check i start (pairs.map fun q => (q.1 i, q.2 i)))
      fun i => pairs.map fun q => q.1 i) (accepted : Nat) :
    DecidedBy A (N / 2) accepted (fun b => rest (tossedStream coins b))
      (fun b j => value (tossedStream coins b)
        (x (2 * A * b + j), x (2 * A * b + min A (N / 2 - A * b) + j)))
      (fun i => (range (N / 2)).map fun l => x (2 * A * (l / A) + l % A) i)
      (EndTogether coins.length (fun i => (eachBatch (check i) []
        (pairings ⟨⟨i, coins.length⟩, A⟩ ((range N).map fun l => x l i))).start
          (standing ledger accepted i)) (Coins.tapes coins)) := by
  have hcount : ∀ k, k < (batchesOf A N x).length ↔ A * k < N / 2 := by
    intro k
    rw [batchesOf, length_map, length_range, Nat.lt_div_iff_mul_lt hA, Nat.mul_comm k A]
    omega
  have hprogram : ∀ i, pairings ⟨⟨i, coins.length⟩, A⟩ ((range N).map fun l => x l i)
      = (batchesOf A N x).map (·.map fun q => (q.1 i, q.2 i)) := by
    intro i
    rw [pairings_range hA hN, batchesOf_map x (· i)]
  refine ((batchLoop_eachBatch h).decidedBy hledger hcount ?_ ?_ accepted).map ?_ ?_
  · intro k hk
    exact length_before hA x ((hcount k).mp hk)
  · intro k hk
    rw [getElem?_batchesOf hA x ((hcount k).mp hk), Option.getD_some, batchAt, map_map]
    rfl
  · intro h
    simp only [kept_batchesOf hA, map_map] at h
    exact h.congr fun i _ => by rw [hprogram i]; rfl
  · intro e h
    exact h.congr fun i _ => by rw [hprogram i]; rfl

/-- The errors of the products decide a batch of triples. -/
theorem decides_tripleBatch (hn : n < 2 ^ 64) {key : Nat → φ}
    {pairs : List (Candidate φ × Candidate φ)}
    (hvalid : ∀ q ∈ pairs, q.1.Valid n key ∧ q.2.Valid n key) :
    Decides n key
      (fun s => pairs.map fun q => (sample s).1 * q.1.productError n - q.2.productError n)
      (fun s => (sample (α := φ) s).2)
      (fun start i => tripleBatch ⟨⟨i, n⟩, A⟩ start (pairs.map fun q => (q.1 i, q.2 i)))
      fun i => pairs.map fun q => q.1 i := by
  have hdecides := decides_of_conclude hA hn (fun s => masks (sample (α := φ) s).1 pairs)
    (fun s => pairs.map (tau n (sample s).1)) (fun s => (sample (α := φ) s).2) (suspects pairs)
    (fun b _ start accepted tape _ _ h => Gives.tripleBatch_start hA hn b start accepted tape rfl h)
    (fun _ => authentic_masks hvalid _) fun _ => authentic_taus hvalid _
  simpa only [map_map, Function.comp_def, sharedValue_tau] using hdecides

omit hA

/-- **Sacrificing triples decides the algebraic condition.**  Candidates that are shared
with the right tags but whose products may be wrong are cut into batches of `2 * A`, the
last of which may be smaller.  In batch `b` the candidate `2 * A * b + j` is kept and
compared with the candidate that comes as many places later as are kept, by the tossed
`t` and coefficients `r j`.  If the sum of the weighted differences `t * e j - f j` of their
errors is zero in every batch, everybody gets the first halves of all batches in order;
otherwise everybody fails in the first batch with another sum, at the first pair with
`t * e j ≠ f j`. -/
theorem triples_decide {F : FieldName} {coins : List Coins} (hparties : 0 < coins.length)
    (hbound : coins.length < 2 ^ 64) {A N : Nat} (hA : 0 < A) (hN : N < 2 ^ 64)
    {ledger : Ledger F.Carrier} (hledger : ledger.Sound coins.length) (accepted : Nat)
    {candidate : Nat → Candidate F.Carrier}
    (hvalid : ∀ l < N, (candidate l).Valid coins.length ledger.key) :
    let n := coins.length
    let m b := min A (N / 2 - A * b)
    let e b j := (candidate (2 * A * b + j)).productError n
    let f b j := (candidate (2 * A * b + m b + j)).productError n
    let t b : F.Carrier := (sample (tossedStream coins b)).1
    let r b j : F.Carrier :=
      (samples (m b) (sample (α := F.Carrier) (tossedStream coins b)).2).1[j]?.getD 0
    let weighted b := sum ((range (m b)).map fun j => r b j * (t b * e b j - f b j))
    let verdicts := ((Network.ofCoins coins).runOn .honest ((range n).map fun i =>
      (triples ⟨⟨i, n⟩, A⟩ ((range N).map fun l => candidate l i)).start
        (standing ledger accepted i))).1.map (·.map (·.1))
    ((∀ b, A * b < N / 2 → weighted b = 0) →
      verdicts = (range n).map fun i => some (.ok ((range (N / 2)).map fun l =>
        candidate (2 * A * (l / A) + l % A) i))) ∧
    ∀ b, A * b < N / 2 → (∀ b' < b, weighted b' = 0) → weighted b ≠ 0 →
      ∃ j < m b, t b * e b j ≠ f b j ∧ (∀ j' < j, t b * e b j' = f b j') ∧
        verdicts = (range n).map fun _ =>
          some (.error (.error (.sacrifice (accepted + b) (A * b + j)))) := by
  intro n m e f t r weighted verdicts
  have hdecided := (pairs_decided hA hledger hN candidate (fun _ hpairs =>
    decides_tripleBatch hA hbound (forall_mem_batchesOf (P := (Candidate.Valid · n ledger.key)) hvalid
      hpairs)) accepted).map (·.allEnd hparties) fun _ h => h.allEnd hparties
  refine ⟨hdecided.accepts, fun b hlt hzero hne => ?_⟩
  obtain ⟨j, hj, hbad, hgood, hends⟩ := hdecided.rejects b hlt hzero hne
  exact ⟨j, hj, sub_ne_zero.mp hbad, fun j' hj' => sub_eq_zero.mp (hgood j' hj'), hends⟩

/-- Shares of right products: the factors `3 * l + 3` and `3`, under the key `3`. -/
def rightProduct (l i : Nat) : Triple Mersenne61 Mersenne61 :=
  let share (v : Nat) : Share Mersenne61 Mersenne61 := ⟨Residue.ofNat v, Residue.ofNat (3 * v)⟩
  ⟨share (l + i), share i, share (3 * (l + i))⟩

theorem valid_rightProduct {l : Nat} (hl : l < 5) :
    Candidate.Valid (rightProduct l) 3 fun _ => (1 : Mersenne61) := by
  interval_cases l <;> (constructor <;> (unfold Authentic; decide))

theorem productError_rightProduct {l : Nat} (hl : l < 5) :
    Candidate.productError (rightProduct l) 3 = 0 := by
  interval_cases l <;> decide

/-- Three parties keep two of five right products, and the last one is dropped. -/
theorem triples_decide_five :
    ((Network.ofCoins [.ofSeed 0, .ofSeed 1, .ofSeed 2]).runOn .honest ((range 3).map fun i =>
      (triples ⟨⟨i, 3⟩, 1⟩ ((range 5).map fun l => rightProduct l i)).start
        (standing ⟨fun _ => 1, []⟩ 4 i))).1.map (·.map (·.1))
      = (range 3).map fun i => some (.ok [rightProduct 0 i, rightProduct 2 i]) := by
  have hledger : (⟨fun _ => 1, []⟩ : Ledger Mersenne61).Sound 3 := by
    intro p hp
    cases hp
  have hdecide := @triples_decide .mersenne61 [.ofSeed 0, .ofSeed 1, .ofSeed 2] (by decide)
    (by decide) 1 5 (by decide) (by decide) ⟨fun _ => 1, []⟩ hledger 4 rightProduct
    fun l hl => valid_rightProduct hl
  refine (hdecide.1 fun b hb => ?_).trans rfl
  refine (sum_eq_sum _).trans (sum_eq_zero fun v hv => ?_)
  obtain ⟨j, hj, rfl⟩ := mem_map.mp hv
  have hj : j < min 1 (5 / 2 - 1 * b) := mem_range.mp hj
  have hkept : Candidate.productError (rightProduct (2 * 1 * b + j)) 3 = 0 :=
    productError_rightProduct (by omega)
  have hsacrificed :
      Candidate.productError (rightProduct (2 * 1 * b + min 1 (5 / 2 - 1 * b) + j)) 3 = 0 :=
    productError_rightProduct (by omega)
  show _ * (_ * Candidate.productError (rightProduct (2 * 1 * b + j)) 3
    - Candidate.productError (rightProduct (2 * 1 * b + min 1 (5 / 2 - 1 * b) + j)) 3) = 0
  rw [hkept, hsacrificed, mul_zero, sub_zero, mul_zero]

end Decision

end Sacrifice

end Beaver
