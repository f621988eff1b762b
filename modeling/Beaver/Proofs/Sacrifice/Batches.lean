import Mathlib
import Beaver.Proofs.Sacrifice.Steps

/-!
# Loops over batches of check values

Triples, squares, bits and inverses are all checked batch by batch, and what happens to a
batch depends on its check values alone: if their weighted sum is zero it is accepted, and
otherwise everybody fails at the first value that is not (`Decides`).  A loop over such batches
comes to the first one with another sum, or to its end (`BatchLoop.accepted`,
`BatchLoop.rejected`).

Each accepted batch takes five draws of every party: a seed and a salt for the stream of the
batch, a seed and a salt for the coefficients of the tag check, and a salt for its result.  So
the stream of each batch is known in advance.
-/

namespace Beaver

open List hiding sum
open ShareRing

namespace Sacrifice

open Gives (nextStream)

variable {φ : Type} [ShareField φ] [LawfulShareRing φ] {n A : Nat} {key : Nat → φ} {β : Type}

/-- The sum of values, weighted with the coefficients that a stream gives for them. -/
def weighted (values : List φ) (s : CoinStream) : φ :=
  ((values.zip (samples values.length s).1).map fun q => q.1 * q.2).sum

omit [LawfulShareRing φ] in
theorem combination_eq_weighted (taus : List (Nat → Share φ φ)) (s : CoinStream) :
    combination n taus s = weighted (taus.map (sharedValue n)) s := by
  rw [combination, weights, weighted, length_map, zip_map_left, map_map]
  rfl

theorem weighted_eq_zero {values : List φ} (h : ∀ v ∈ values, v = 0) (s : CoinStream) :
    weighted values s = 0 := by
  refine sum_eq_zero fun v hv => ?_
  obtain ⟨q, hq, rfl⟩ := mem_map.mp hv
  rw [h _ (of_mem_zip hq).1, zero_mul]

/-- If the weighted sum is not zero, one of the values is the first that is not. -/
theorem exists_first_ne_zero {values : List φ} {s : CoinStream} (h : weighted values s ≠ 0) :
    ∃ j, values.findIdx? (fun v => decide (v ≠ 0)) = some j := by
  cases hfind : values.findIdx? (fun v => decide (v ≠ 0)) with
  | some j => exact ⟨j, rfl⟩
  | none =>
    rw [findIdx?_eq_none_iff] at hfind
    exact absurd (weighted_eq_zero (fun v hv => of_not_not (of_decide_eq_false (hfind v hv))) s) h

/-- A batch that is decided by its check values: the stream that the parties toss gives the
values, and what is left of it gives their coefficients.  If their weighted sum is zero,
everybody accepts the batch; otherwise everybody fails at the first value that is not. -/
structure Decides (n : Nat) (key : Nat → φ) (values : CoinStream → List φ)
    (rest : CoinStream → CoinStream) (check : Nat → Nat → Session (Sacrifice φ) β)
    (result : Nat → β) : Prop where
  accepts : ∀ b : Ledger φ, b.key = key → b.Sound n → ∀ start accepted tape,
    weighted (values (nextStream n tape)) (rest (nextStream n tape)) = 0 →
    Gives n (fun i => (check start i).start (standing b accepted i)) tape
      (fun i => (.ok (result i), standing b.cleared (accepted + 1) i))
      fun i => (tape i).tail.tail.tail.tail.tail
  rejects : ∀ b : Ledger φ, b.key = key → ∀ start accepted tape,
    weighted (values (nextStream n tape)) (rest (nextStream n tape)) ≠ 0 →
    ∃ j, (values (nextStream n tape)).findIdx? (fun v => decide (v ≠ 0)) = some j ∧
      ∃ b' tape', Gives n (fun i => (check start i).start (standing b accepted i)) tape
        (fun i => (.error (.error (.sacrifice accepted (start + j))), standing b' accepted i)) tape'

/-- **Shares of check values decide a batch** that opens authentic shares and then concludes. -/
theorem decides_of_conclude (hA : 0 < A) (hn : n < 2 ^ 64)
    (masks taus : CoinStream → List (Nat → Share φ φ)) (rest : CoinStream → CoinStream)
    (suspects : Nat → List (Nat → Share φ φ)) {check : Nat → Nat → Session (Sacrifice φ) β}
    {result : Nat → β}
    (hstart : ∀ b : Ledger φ, b.key = key → ∀ start accepted tape tape' r,
      Gives n (fun i => (conclude ⟨⟨i, n⟩, A⟩ start ((taus (nextStream n tape)).map (· i))
          (rest (nextStream n tape)) (fun j => (suspects j).map (· i)) (result i)).start
            (standing (b.opened n (masks (nextStream n tape))) accepted i))
        (fun i => (tape i).tail.tail) r tape' →
      Gives n (fun i => (check start i).start (standing b accepted i)) tape r tape')
    (hmasks : ∀ s, ∀ x ∈ masks s, Authentic n key x) (htaus : ∀ s, ∀ x ∈ taus s, Authentic n key x) :
    Decides n key (fun s => (taus s).map (sharedValue n)) rest check result where
  accepts b hkey hb start accepted tape hzero := by
    subst hkey
    rw [← combination_eq_weighted] at hzero
    refine hstart b rfl start accepted tape _ _ ?_
    exact Gives.conclude_accepted hA (b.opened n (masks _)) (htaus _) _ accepted _
      (hb.opened (hmasks _)) hn hzero start _ result
  rejects b hkey start accepted tape hne := by
    subst hkey
    obtain ⟨j, hj⟩ := exists_first_ne_zero hne
    rw [← combination_eq_weighted] at hne
    obtain ⟨b', hrejected⟩ := Gives.conclude_rejected hA (b.opened n (masks _)) (htaus _) _ accepted
      (fun i => (tape i).tail.tail) hne hj start suspects result
    exact ⟨j, hj, b', _, hstart b rfl start accepted tape _ _ hrejected⟩

/-- A loop over batches, as it stands after each number of them: it goes on with a check that
decides the next batch, whose first value has the number `start k`. -/
structure BatchLoop (n : Nat) (key : Nat → φ) (count : Nat) (start : Nat → Nat)
    (values : Nat → CoinStream → List φ) (rest : CoinStream → CoinStream)
    (loop : Nat → Nat → Session (Sacrifice φ) β) (final : Nat → β) : Prop where
  step : ∀ k < count, ∃ (γ : Type) (check : Nat → Nat → Session (Sacrifice φ) γ) (result : Nat → γ)
    (next : Nat → γ → Session (Sacrifice φ) β), Decides n key (values k) rest check result ∧
      ∀ i, loop k i = check (start k) i >>= next i ∧ next i (result i) = loop (k + 1) i
  done : ∀ i, loop count i = pure (final i)

namespace BatchLoop

variable {count : Nat} {start : Nat → Nat} {values : Nat → CoinStream → List φ}
variable {rest : CoinStream → CoinStream} {loop : Nat → Nat → Session (Sacrifice φ) β}
variable {final : Nat → β} {b : Ledger φ} (h : BatchLoop n b.key count start values rest loop final)
variable (tape : Nat → Tape)

/-- The weighted sum of batch number `k`, if all before it are accepted. -/
def sumAt (n : Nat) (values : Nat → CoinStream → List φ) (rest : CoinStream → CoinStream)
    (tape : Nat → Tape) (k : Nat) : φ :=
  weighted (values k (nextStream n fun i => (tape i).drop (5 * k)))
    (rest (nextStream n fun i => (tape i).drop (5 * k)))

include h

omit [LawfulShareRing φ] in
/-- Batches whose sums are zero are passed. -/
theorem reaches (hb : b.Sound n) {m : Nat} (hm : m ≤ count)
    (hzero : ∀ k < m, sumAt n values rest tape k = 0) (accepted : Nat) {x : Nat → Except Failure β}
    {accepted' : Nat}
    (hrest : ∀ b' : Ledger φ, b'.key = b.key → b'.Sound n → ∃ b'' tape',
      Gives n (fun i => (loop m i).start (standing b' (accepted + m) i))
        (fun i => (tape i).drop (5 * m)) (fun i => (x i, standing b'' accepted' i)) tape') :
    ∃ b' tape', Gives n (fun i => (loop 0 i).start (standing b accepted i)) tape
      (fun i => (x i, standing b' accepted' i)) tape' := by
  induction m with
  | zero => simpa using hrest b rfl hb
  | succ m ih =>
    refine ih (by omega) (fun k hk => hzero k (by omega)) fun b' hkey hb' => ?_
    obtain ⟨γ, check, result, next, hdecides, hloop⟩ := h.step m (by omega)
    obtain ⟨b'', tape', hgives⟩ := hrest b'.cleared hkey b'.sound_cleared
    refine ⟨b'', tape', ?_⟩
    simp only [hloop]
    refine Gives.andThen (hdecides.accepts b' hkey hb' _ _ _ (hzero m (by omega))) ?_
    simp only [hloop, Tape.tail_drop]
    exact hgives

omit [LawfulShareRing φ] in
/-- **All batches are accepted** if all sums are zero. -/
theorem accepted (hb : b.Sound n) (hzero : ∀ k < count, sumAt n values rest tape k = 0)
    (accepted : Nat) :
    ∃ b' tape', Gives n (fun i => (loop 0 i).start (standing b accepted i)) tape
      (fun i => (.ok (final i), standing b' (accepted + count) i)) tape' := by
  refine h.reaches tape hb (Nat.le_refl count) hzero accepted fun b' _ _ => ?_
  simp only [h.done]
  exact ⟨b', _, Gives.pure _ _ _⟩

/-- **The first batch whose sum is not zero is rejected** at its first value that is not. -/
theorem rejected (hb : b.Sound n) {m : Nat} (hm : m < count)
    (hzero : ∀ k < m, sumAt n values rest tape k = 0) (hne : sumAt n values rest tape m ≠ 0)
    (accepted : Nat) :
    ∃ j, (values m (nextStream n fun i => (tape i).drop (5 * m))).findIdx?
        (fun v => decide (v ≠ 0)) = some j ∧
      ∃ b' tape', Gives n (fun i => (loop 0 i).start (standing b accepted i)) tape
        (fun i => (.error (.error (.sacrifice (accepted + m) (start m + j))),
          standing b' (accepted + m) i)) tape' := by
  obtain ⟨γ, check, result, next, hdecides, hloop⟩ := h.step m hm
  obtain ⟨j, hj⟩ := exists_first_ne_zero hne
  refine ⟨j, hj, h.reaches tape hb (Nat.le_of_lt hm) hzero accepted fun b' hkey _ => ?_⟩
  obtain ⟨j', hj', b'', tape', hrejected⟩ := hdecides.rejects b' hkey (start m) (accepted + m) _ hne
  obtain rfl : j' = j := Option.some.inj (hj'.symm.trans hj)
  refine ⟨b'', tape', ?_⟩
  simp only [hloop]
  exact Gives.failed hrejected

end BatchLoop

section Pairs

variable {α : Type} {check : Nat → Nat → List (α × α) → Session (Sacrifice φ) (List α)}
variable {values : List ((Nat → α) × (Nat → α)) → CoinStream → List φ}
variable {rest : CoinStream → CoinStream} {batches : List (List ((Nat → α) × (Nat → α)))}

omit [LawfulShareRing φ] in
/-- Checking pairs batch after batch is a loop that keeps the first halves. -/
theorem batchLoop_eachBatch
    (h : ∀ pairs ∈ batches, Decides n key (values pairs) rest
      (fun start i => check i start (pairs.map fun q => (q.1 i, q.2 i)))
      fun i => pairs.map fun q => q.1 i) :
    BatchLoop n key batches.length (fun k => ((batches.take k).map length).sum)
      (fun k => values (batches[k]?.getD [])) rest
      (fun k i => eachBatch (check i) (((batches.take k).flatten.map (·.1)).map (· i))
        ((batches.drop k).map (·.map fun q => (q.1 i, q.2 i))))
      (fun i => (batches.flatten.map (·.1)).map (· i)) where
  step k hk := by
    have hpairs : batches[k]?.getD [] = batches[k] := by
      rw [getElem?_eq_getElem hk, Option.getD_some]
    have hkept : ∀ i, ((batches.take (k + 1)).flatten.map (·.1)).map (· i)
        = ((batches.take k).flatten.map (·.1)).map (· i) ++ batches[k].map fun q => q.1 i := by
      intro i
      rw [take_succ_eq_append_getElem hk, flatten_append, flatten_singleton]
      simp only [map_append, map_map, Function.comp_def]
    refine ⟨_, fun start i => check i start (batches[k].map fun q => (q.1 i, q.2 i)),
      fun i => batches[k].map fun q => q.1 i, fun i good => eachBatch (check i)
        (((batches.take k).flatten.map (·.1)).map (· i) ++ good)
        ((batches.drop (k + 1)).map (·.map fun q => (q.1 i, q.2 i))),
      ?_, fun i => ⟨?_, by rw [hkept]⟩⟩
    · rw [hpairs]
      exact h _ (getElem_mem hk)
    · rw [drop_eq_getElem_cons hk, map_cons, eachBatch, length_map, length_map, length_flatten]
  done i := by
    rw [take_length, drop_length]
    rfl

end Pairs

/-! ## Runs on a network -/

/-- The stream that the parties toss for batch number `b`. -/
def tossedStream (coins : List Coins) (b : Nat) : CoinStream :=
  CoinStream.ofSeed (CoinToss.join (coins.map fun c => c.draws (c.used + 5 * b) 32))

theorem nextStream_tapes (coins : List Coins) (b : Nat) :
    Gives.nextStream coins.length (fun i => (Coins.tapes coins i).drop (5 * b))
      = tossedStream coins b :=
  Gives.nextStream_tapes coins (5 * b)

section Outcomes

variable {σ : Type} {program : Nat → Protocol (Except Failure β × σ)} {x : Nat → Except Failure β}

/-- All parties together come to the given outcomes. -/
def EndTogether (n : Nat) (program : Nat → Protocol (Except Failure β × σ)) (tape : Nat → Tape)
    (x : Nat → Except Failure β) : Prop :=
  ∃ (st : Nat → σ) (tape' : Nat → Tape), Gives n program tape (fun i => (x i, st i)) tape'

theorem EndTogether.congr {tape : Nat → Tape} {program' : Nat → Protocol (Except Failure β × σ)}
    (h : EndTogether n program tape x) (heq : ∀ i < n, program i = program' i) :
    EndTogether n program' tape x := by
  obtain ⟨st, tape', hgives⟩ := h
  exact ⟨st, tape', hgives.congr heq⟩

/-- All parties end their part of a run on a network with the given outcomes. -/
def AllEnd (coins : List Coins) (program : Nat → Protocol (Except Failure β × σ))
    (x : Nat → Except Failure β) : Prop :=
  ((Network.ofCoins coins).runOn .honest ((range coins.length).map program)).1.map (·.map (·.1))
    = (range coins.length).map fun i => some (x i)

theorem EndTogether.allEnd {coins : List Coins} (hparties : 0 < coins.length)
    (h : EndTogether coins.length program (Coins.tapes coins) x) : AllEnd coins program x := by
  obtain ⟨st, tape', hgives⟩ := h
  rw [AllEnd, Network.runOn_of_gives hparties hgives, map_map]
  rfl

end Outcomes

/-- The weighted sum of batch number `b` of `total` values, `A` to a batch. -/
def weightedSum (A total : Nat) (stream : Nat → CoinStream) (value : Nat → Nat → φ) (b : Nat) : φ :=
  sum ((range (min A (total - A * b))).map fun j =>
    ((samples (min A (total - A * b)) (stream b)).1[j]?.getD 0) * value b j)

theorem weightedSum_eq (A total : Nat) (stream : Nat → CoinStream) (value : Nat → Nat → φ)
    (b : Nat) : weightedSum A total stream value b
      = weighted ((range (min A (total - A * b))).map (value b)) (stream b) := by
  generalize hm : min A (total - A * b) = m
  rw [weightedSum, weighted, sum_eq_sum, hm, length_map, length_range]
  have hlength : (samples m (stream b) : List φ × CoinStream).1.length = m := length_samples m _
  congr 1
  apply ext_getElem
  · simp [hlength]
  · intro j hj _
    have hj : j < m := by simpa using hj
    simp only [getElem_map, getElem_zip, getElem_range]
    rw [getElem?_eq_getElem (by omega), Option.getD_some, mul_comm]

theorem weightedSum_eq_zero {A total : Nat} {stream : Nat → CoinStream} {value : Nat → Nat → φ}
    {b : Nat} (h : ∀ j < min A (total - A * b), value b j = 0) :
    weightedSum A total stream value b = 0 := by
  rw [weightedSum_eq]
  refine weighted_eq_zero (fun v hv => ?_) _
  obtain ⟨j, hj, rfl⟩ := mem_map.mp hv
  exact h j (mem_range.mp hj)

/-- What is decided by `total` check values, `A` to a batch: if the weighted sum of every batch
is zero, everybody ends with a result; otherwise everybody fails in the first batch with another
sum, at its first value that is not zero, counted over all batches. -/
structure DecidedBy (A total accepted : Nat) (stream : Nat → CoinStream) (value : Nat → Nat → φ)
    (result : Nat → β) (ends : (Nat → Except Failure β) → Prop) : Prop where
  accepts : (∀ b, A * b < total → weightedSum A total stream value b = 0) →
    ends fun i => .ok (result i)
  rejects : ∀ b, A * b < total → (∀ b' < b, weightedSum A total stream value b' = 0) →
    weightedSum A total stream value b ≠ 0 →
    ∃ j < min A (total - A * b), value b j ≠ 0 ∧ (∀ j' < j, value b j' = 0) ∧
      ends fun _ => .error (.error (.sacrifice (accepted + b) (A * b + j)))

omit [LawfulShareRing φ] in
/-- What follows a decided check and cannot fail is decided with it. -/
theorem DecidedBy.map {γ : Type} {total accepted : Nat} {stream : Nat → CoinStream}
    {value : Nat → Nat → φ} {result : Nat → β} {result' : Nat → γ}
    {ends : (Nat → Except Failure β) → Prop} {ends' : (Nat → Except Failure γ) → Prop}
    (h : DecidedBy A total accepted stream value result ends)
    (hok : (ends fun i => .ok (result i)) → ends' fun i => .ok (result' i))
    (herror : ∀ e, (ends fun _ => .error e) → ends' fun _ => .error e) :
    DecidedBy A total accepted stream value result' ends' where
  accepts hzero := hok (h.accepts hzero)
  rejects b hb hzero hne := by
    obtain ⟨j, hj, hbad, hgood, hends⟩ := h.rejects b hb hzero hne
    exact ⟨j, hj, hbad, hgood, herror _ hends⟩

omit [LawfulShareRing φ] in
/-- A result that is returned after a check is decided by the check. -/
theorem DecidedBy.andReturn {σ : Type} {total accepted : Nat} {stream : Nat → CoinStream}
    {value : Nat → Nat → φ} {check : Nat → Session σ Unit} {st : Nat → σ} {tape : Nat → Tape}
    (h : DecidedBy A total accepted stream value (fun _ => ())
      (EndTogether n (fun i => (check i).start (st i)) tape)) (result : Nat → β) :
    DecidedBy A total accepted stream value result
      (EndTogether n (fun i => (check i >>= fun _ => pure (result i)).start (st i)) tape) := by
  refine h.map ?_ ?_
  · rintro ⟨st', tape', hgives⟩
    exact ⟨st', tape', hgives.andThen (.pure _ _ _)⟩
  · rintro e ⟨st', tape', hgives⟩
    exact ⟨st', tape', hgives.failed⟩

/-- **A loop over batches of check values is decided by them.** -/
theorem BatchLoop.decidedBy {coins : List Coins} {ledger : Ledger φ} {count total : Nat}
    {start : Nat → Nat} {values : Nat → CoinStream → List φ} {rest : CoinStream → CoinStream}
    {loop : Nat → Nat → Session (Sacrifice φ) β} {final : Nat → β} {value : Nat → Nat → φ}
    (h : BatchLoop coins.length ledger.key count start values rest loop final)
    (hledger : ledger.Sound coins.length) (hcount : ∀ k, k < count ↔ A * k < total)
    (hstart : ∀ k < count, start k = A * k)
    (hvalues : ∀ k < count, values k (tossedStream coins k)
      = (range (min A (total - A * k))).map (value k)) (accepted : Nat) :
    DecidedBy A total accepted (fun k => rest (tossedStream coins k)) value final (EndTogether
      coins.length (fun i => (loop 0 i).start (standing ledger accepted i)) (Coins.tapes coins)) := by
  have hsum : ∀ k < count, sumAt coins.length values rest (Coins.tapes coins) k
      = weightedSum A total (fun k => rest (tossedStream coins k)) value k := by
    intro k hk
    rw [sumAt, nextStream_tapes, hvalues k hk, weightedSum_eq]
  constructor
  case accepts =>
    intro hzero
    obtain ⟨b', tape', hgives⟩ := h.accepted (Coins.tapes coins) hledger
      (fun k hk => (hsum k hk).trans (hzero k ((hcount k).mp hk))) accepted
    exact ⟨_, tape', hgives⟩
  case rejects =>
    intro b hb hzero hne
    have hlt := (hcount b).mpr hb
    obtain ⟨j, hj, b', tape', hgives⟩ := h.rejected (Coins.tapes coins) hledger hlt
      (fun k hk => (hsum k (Nat.lt_trans hk hlt)).trans (hzero k hk))
      (by rw [hsum b hlt]; exact hne) accepted
    rw [nextStream_tapes, hvalues b hlt] at hj
    obtain ⟨hlength, hbad, hgood⟩ := findIdx?_eq_some_iff_getElem.mp hj
    rw [length_map, length_range] at hlength
    simp only [getElem_map, getElem_range, decide_eq_true_eq] at hbad hgood
    rw [hstart b hlt] at hgives
    exact ⟨j, hlength, hbad, fun j' hj' => of_not_not (hgood j' hj'), _, tape', hgives⟩

end Sacrifice

end Beaver
