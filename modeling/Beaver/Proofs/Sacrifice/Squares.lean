import Mathlib
import Beaver.Proofs.Sacrifice.Verdict

/-!
# Sacrificing squares

A kept pair of a value and its square is compared with a sacrificed one: with a tossed `t` the
parties open `ρ = t * a - a'`, from which they have shares of the check value
`t ^ 2 * s - s' - (t * a + a') * ρ`.  It is `t ^ 2 * e - e'` for the errors of the two squares
(`sharedValue_squareTau`), so these decide as they do for triples (`squares_decided`).
-/

namespace Beaver

open List
open ShareRing

namespace Sacrifice

variable {φ : Type} [ShareField φ] [LawfulShareRing φ] {n A : Nat} {key : Nat → φ}

/-- All parties' shares of a value and its square. -/
abbrev SharedSquare (φ : Type) := Nat → SquarePair φ

namespace SharedSquare

variable (x : SharedSquare φ)

/-- How far the square is off. -/
def squareError (n : Nat) : φ :=
  sharedValue n (fun i => (x i).2) - sharedValue n (fun i => (x i).1) * sharedValue n (fun i => (x i).1)

/-- The value and its square have the right tags. -/
structure Valid (n : Nat) (key : Nat → φ) : Prop where
  root : Authentic n key fun i => (x i).1
  square : Authentic n key fun i => (x i).2

end SharedSquare

/-- The masked value of a pair. -/
def squareRho (t : φ) (q : SharedSquare φ × SharedSquare φ) (i : Nat) : Share φ φ :=
  (q.1 i).1.mulPublic t - (q.2 i).1

/-- The check value of a pair. -/
def squareTau (n : Nat) (t : φ) (q : SharedSquare φ × SharedSquare φ) (i : Nat) : Share φ φ :=
  (q.1 i).2.mulPublic (t * t) - (q.2 i).2
    - ((q.1 i).1.mulPublic t + (q.2 i).1).mulPublic (sharedValue n (squareRho t q))

/-- **The check value compares the errors of the two squares.** -/
theorem sharedValue_squareTau (t : φ) (q : SharedSquare φ × SharedSquare φ) :
    sharedValue n (squareTau n t q) = t * t * q.1.squareError n - q.2.squareError n := by
  have htau : sharedValue n (squareTau n t q) = sharedValue n (fun i => (q.1 i).2) * (t * t)
      - sharedValue n (fun i => (q.2 i).2)
      - (sharedValue n (fun i => (q.1 i).1) * t + sharedValue n (fun i => (q.2 i).1))
        * sharedValue n (squareRho t q) := by
    refine (sharedValue_sub _ _).trans ?_
    rw [sharedValue_sub, sharedValue_mulPublic, sharedValue_mulPublic, sharedValue_add,
      sharedValue_mulPublic]
  have hrho : sharedValue n (squareRho t q) = sharedValue n (fun i => (q.1 i).1) * t
      - sharedValue n (fun i => (q.2 i).1) := by
    refine (sharedValue_sub _ _).trans ?_
    rw [sharedValue_mulPublic]
  rw [htau, hrho, SharedSquare.squareError, SharedSquare.squareError]
  ring

/-- All shares of the pair number `j`. -/
def squareSuspects (pairs : List (SharedSquare φ × SharedSquare φ)) (j : Nat) :
    List (Nat → Share φ φ) :=
  match pairs[j]? with
  | some (k, s) => [fun i => (k i).1, fun i => (k i).2, fun i => (s i).1, fun i => (s i).2]
  | none => []

section Batch

variable (hA : 0 < A) (hn : n < 2 ^ 64) {pairs : List (SharedSquare φ × SharedSquare φ)}

include hA hn

/-- Up to the check values everybody does the same. -/
theorem squareBatch_start (b : Ledger φ) (kept accepted : Nat) {tape tape' : Nat → Tape}
    {r : Nat → Except Failure (List (SquarePair φ)) × Sacrifice φ} {t : φ} {s : CoinStream}
    (hs : sample (Gives.nextStream n tape) = (t, s))
    (h : Gives n (fun i => (conclude ⟨⟨i, n⟩, A⟩ kept ((pairs.map (squareTau n t)).map (· i)) s
        (fun j => (squareSuspects pairs j).map (· i)) (pairs.map fun q => q.1 i)).start
          (standing (b.opened n (pairs.map (squareRho t))) accepted i))
      (fun i => (tape i).tail.tail) r tape') :
    Gives n (fun i => (squareBatch ⟨⟨i, n⟩, A⟩ kept (pairs.map fun q => (q.1 i, q.2 i))).start
      (standing b accepted i)) tape r tape' := by
  refine Gives.andThen (Gives.shared hn (standing b accepted) tape) ?_
  rw [Gives.nextStream] at hs
  simp only [hs]
  have hopen := Gives.openInBatches (n := n) hA (pairs.map (squareRho t)) "sacrifice rho" b accepted
    fun i => (tape i).tail.tail
  simp only [map_map, Function.comp_def, squareRho] at hopen
  simp only [map_map, Function.comp_def]
  refine Gives.andThen hopen ?_
  simp only [zip_map', map_map, Function.comp_def]
  refine h.congr fun i _ => ?_
  rw [map_map]
  congr 2
  funext j
  rw [squareSuspects, getElem?_map]
  cases pairs[j]? with
  | none => rfl
  | some q => rfl

/-- The errors of the squares decide a batch. -/
theorem decides_squareBatch (hvalid : ∀ q ∈ pairs, q.1.Valid n key ∧ q.2.Valid n key) :
    Decides n key (fun s => pairs.map fun q =>
        (sample s).1 * (sample s).1 * q.1.squareError n - q.2.squareError n)
      (fun s => (sample (α := φ) s).2)
      (fun start i => squareBatch ⟨⟨i, n⟩, A⟩ start (pairs.map fun q => (q.1 i, q.2 i)))
      fun i => pairs.map fun q => q.1 i := by
  have hdecides := decides_of_conclude hA hn
    (fun s => pairs.map (squareRho (sample (α := φ) s).1))
    (fun s => pairs.map (squareTau n (sample s).1)) (fun s => (sample (α := φ) s).2)
    (squareSuspects pairs) (fun b (_ : b.key = key) start accepted tape _ _ h =>
      squareBatch_start hA hn b start accepted rfl h) ?_ ?_
  · simpa only [map_map, Function.comp_def, sharedValue_squareTau] using hdecides
  · intro s x hx
    obtain ⟨q, hq, rfl⟩ := mem_map.mp hx
    obtain ⟨h₁, h₂⟩ := hvalid q hq
    exact (h₁.root.mulPublic _).sub h₂.root
  · intro s x hx
    obtain ⟨q, hq, rfl⟩ := mem_map.mp hx
    obtain ⟨h₁, h₂⟩ := hvalid q hq
    exact ((h₁.square.mulPublic _).sub h₂.square).sub (((h₁.root.mulPublic _).add h₂.root).mulPublic _)

end Batch

/-- **The errors of squares decide their check**, pair by pair as for triples. -/
theorem squares_decided {coins : List Coins} (hbound : coins.length < 2 ^ 64) (hA : 0 < A)
    {N : Nat} (hN : N < 2 ^ 64) {ledger : Ledger φ} (hledger : ledger.Sound coins.length)
    {square : Nat → SharedSquare φ} (hvalid : ∀ l < N, (square l).Valid coins.length ledger.key)
    (accepted : Nat) :
    DecidedBy A (N / 2) accepted (fun b => (sample (α := φ) (tossedStream coins b)).2)
      (fun b j => (sample (tossedStream coins b)).1 * (sample (tossedStream coins b)).1
          * (square (2 * A * b + j)).squareError coins.length
        - (square (2 * A * b + min A (N / 2 - A * b) + j)).squareError coins.length)
      (fun i => (range (N / 2)).map fun l => square (2 * A * (l / A) + l % A) i)
      (EndTogether coins.length (fun i => (squares ⟨⟨i, coins.length⟩, A⟩
        ((range N).map fun l => square l i)).start (standing ledger accepted i))
        (Coins.tapes coins)) :=
  pairs_decided hA hledger hN square (fun _ hpairs => decides_squareBatch hA hbound
    (forall_mem_batchesOf (P := (SharedSquare.Valid · coins.length ledger.key)) hvalid hpairs)) accepted

end Sacrifice

end Beaver
