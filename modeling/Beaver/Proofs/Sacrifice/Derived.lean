import Mathlib
import Beaver.Proofs.Loops
import Beaver.Proofs.Openings
import Beaver.Proofs.Ring.BlockField
import Beaver.Proofs.Ring.Mersenne
import Beaver.Proofs.Sacrifice.Products

/-!
# Bits from squares, inverses from triples

If `s = a ^ 2` is opened, everybody finds the same root of it, and `a` is that root or the other
one.  So `(a / root + 1) / 2` is a bit, of which the parties have shares.  If `c = a * b` is
opened, the shares of `b / c` are shares of the inverse of `a`.  Where zero is opened, there is
nothing to divide by, and the item is skipped.
-/

namespace Beaver

open List
open ShareRing

/-- Items that are not skipped, in order. -/
theorem filterMap_skip {α β : Type} (skip : α → Prop) [DecidablePred skip] (f : α → β)
    (xs : List α) : (xs.filterMap fun x => if skip x then none else some (f x))
      = (xs.filter fun x => decide (¬ skip x)).map f := by
  rw [← filterMap_eq_map, filterMap_filter]
  congr 1
  funext x
  by_cases hx : skip x <;> simp [hx]

section Fields

/-- All elements but zero have their inverse found. -/
structure InversesFound (F : Type) [ShareField F] : Prop where
  inverse (a : F) : a ≠ 0 → ∃ i, ShareField.inverse? a = some i ∧ a * i = 1
  inverse_zero : ShareField.inverse? (0 : F) = none

theorem RootsFound.inversesFound {F : Type} [RootField F] (h : RootsFound F) : InversesFound F :=
  ⟨h.inverse, h.inverse_zero⟩

theorem FieldName.inversesFound (F : FieldName) : InversesFound F.Carrier := by
  cases F with
  | mersenne61 => exact rootsFound61.inversesFound
  | mersenne127 => exact rootsFound127.inversesFound
  | gf128 => exact ⟨fun _ => Gf128.inverse?_of_ne, rfl⟩
  | gf2 =>
    refine ⟨fun a ha => ⟨a, ?_⟩, rfl⟩
    rcases a with ⟨_ | _⟩
    · exact absurd rfl ha
    · exact ⟨rfl, rfl⟩

namespace InversesFound

variable {F : Type} [ShareField F] [LawfulShareRing F] (h : InversesFound F) {a b : F}

include h

theorem eq_zero_or_eq_zero (hab : a * b = 0) : a = 0 ∨ b = 0 := by
  by_cases ha : a = 0
  · exact .inl ha
  · obtain ⟨i, -, hi⟩ := h.inverse a ha
    refine .inr ?_
    calc b = a * i * b := by rw [hi, one_mul]
      _ = a * b * i := by ring
      _ = 0 := by rw [hab, zero_mul]

/-- Two roots of one square differ by their signs at most. -/
theorem eq_or_eq_neg (hab : a * a = b * b) : a = b ∨ a = -b := by
  have hproduct : (a - b) * (a + b) = 0 := by
    have hdiff : (a - b) * (a + b) = a * a - b * b := by ring
    rw [hdiff, hab, sub_self]
  rcases h.eq_zero_or_eq_zero hproduct with hzero | hzero
  · exact .inl (sub_eq_zero.mp hzero)
  · exact .inr (eq_neg_of_add_eq_zero_left hzero)

omit [LawfulShareRing F] in
/-- Items with an inverse are those whose value is not zero. -/
theorem filterMap_inverse {α β : Type} (value : α → F) (f : α → F → β) (xs : List α) :
    (xs.filterMap fun x => (ShareField.inverse? (value x)).map (f x))
      = (xs.filter fun x => decide (value x ≠ 0)).map fun x =>
          f x ((ShareField.inverse? (value x)).getD 0) := by
  have hskip : ∀ x, (ShareField.inverse? (value x)).map (f x)
      = if value x = 0 then none else some (f x ((ShareField.inverse? (value x)).getD 0)) := by
    intro x
    by_cases hx : value x = 0
    · rw [if_pos hx, hx, h.inverse_zero, Option.map_none]
    · obtain ⟨i, hi, -⟩ := h.inverse _ hx
      rw [if_neg hx, hi, Option.map_some, Option.getD_some]
  simp only [hskip]
  exact filterMap_skip (fun x => value x = 0) _ xs

end InversesFound

end Fields

namespace Sacrifice

section Opening

variable {φ : Type} [ShareField φ] [LawfulShareRing φ] {A N : Nat} {coins : List Coins}
variable {ledger : Ledger φ} (hbound : coins.length < 2 ^ 64) (hA : 0 < A)
variable (hledger : ledger.Sound coins.length) (accepted : Nat)

include hbound hA hledger

/-- **What follows from opened values**, once their tags have passed the check. -/
theorem endTogether_opened {β : Type} {share : Nat → Nat → Share φ φ}
    (hshare : ∀ l < N, Authentic coins.length ledger.key (share l)) (phase : String)
    {after : Nat → List φ → Session (Sacrifice φ) β} {x : Nat → Except Failure β}
    (hafter : ∀ i, (after i ((range N).map fun l => sharedValue coins.length (share l))).start
      (standing ledger.cleared accepted i) = .done (x i, standing ledger.cleared accepted i)) :
    EndTogether coins.length (fun i => (do
      let opened ← openShares ⟨⟨i, coins.length⟩, A⟩ phase ((range N).map fun l => share l i)
      checking (MacCheck.check ⟨i, coins.length⟩)
      after i opened).start (standing ledger accepted i)) (Coins.tapes coins) x := by
  have hopen := Gives.openInBatches (n := coins.length) hA ((range N).map share) phase ledger
    accepted (Coins.tapes coins)
  have hsound : (ledger.opened coins.length ((range N).map share)).Sound coins.length := by
    refine hledger.opened fun x hx => ?_
    obtain ⟨l, hl, rfl⟩ := mem_map.mp hx
    exact hshare l (mem_range.mp hl)
  -- the tags pass, also if nothing was opened
  obtain ⟨tape', hcheck⟩ := MacCheck.gives_verdict hbound
    (ledger.opened coins.length ((range N).map share)) (Coins.tapes coins)
  simp only [hsound.defect_eq_zero, if_true] at hcheck
  simp only [map_map, Function.comp_def] at hopen
  have hchecked : Gives coins.length (fun i => (checking (MacCheck.check ⟨i, coins.length⟩)).start
      (standing (ledger.opened coins.length ((range N).map share)) accepted i)) (Coins.tapes coins)
      (fun i => (.ok (), standing ledger.cleared accepted i)) tape' := Gives.checking hcheck accepted
  have hend := (Gives.done (fun i => (x i, standing ledger.cleared accepted i)) tape').congr
    (n := coins.length) fun i _ => (hafter i).symm
  exact ⟨_, tape', hopen.andThen (hchecked.andThen hend)⟩

/-- **Triples give inverses** of their first factors, wherever the opened product has one. -/
theorem inversesFromTriples_ends (hfield : InversesFound φ) {triple : Nat → Candidate φ}
    (hvalid : ∀ l < N, (triple l).Valid coins.length ledger.key) :
    EndTogether coins.length (fun i => (inversesFromTriples ⟨⟨i, coins.length⟩, A⟩
      ((range N).map fun l => triple l i)).start (standing ledger accepted i)) (Coins.tapes coins)
      fun i => .ok (((range N).filter fun l =>
        decide (sharedValue coins.length (fun i => (triple l i).c) ≠ 0)).map fun l =>
          ((triple l i).a, (triple l i).b.mulPublic ((ShareField.inverse?
            (sharedValue coins.length fun i => (triple l i).c)).getD 0))) := by
  simp only [inversesFromTriples, map_map, Function.comp_def]
  refine endTogether_opened hbound hA hledger accepted (fun l hl => (hvalid l hl).c) _ fun i => ?_
  rw [Session.start_pure, zip_map', filterMap_map]
  congr 3
  exact hfield.filterMap_inverse _ (fun l inverse => ((triple l i).a, (triple l i).b.mulPublic inverse)) _

end Opening

section Bits

variable {ψ : Type} [RootField ψ] [LawfulShareRing ψ] (hroots : RootsFound ψ)

/-- The inverse of the root that is found. -/
def inverseRoot (s : ψ) : ψ := ((RootField.sqrt? s).bind ShareField.inverse?).getD 0

include hroots

/-- The root of a square other than zero can be inverted. -/
theorem exists_root {s y : ψ} (hs : s ≠ 0) (hy : y * y = s) :
    ∃ root, RootField.sqrt? s = some root ∧ root * root = s ∧
      ShareField.inverse? root = some (inverseRoot s) ∧ root * inverseRoot s = 1 := by
  obtain ⟨root, hroot, hsquare⟩ := hroots.root s y hy
  have hne : root ≠ 0 := by
    rintro rfl
    exact hs (by rw [← hsquare, mul_zero])
  obtain ⟨i, hi, hone⟩ := hroots.inverse root hne
  have hinverse : inverseRoot s = i := by
    rw [inverseRoot, hroot, Option.bind_some, hi, Option.getD_some]
  exact ⟨root, hroot, hsquare, hinverse ▸ hi, hinverse ▸ hone⟩

theorem bitFromSquare_of_square (c : Setting) (key half : ψ) (batch index : Nat) (a : Share ψ ψ)
    {s : ψ} (hs : s = 0 ∨ ∃ y, y * y = s) :
    bitFromSquare c key half batch index a s = .ok (if s = 0 then none else
      some (((a.mulPublic (inverseRoot s)).addPublic 1 key c.player.me).mulPublic half)) := by
  by_cases hzero : s = 0
  · rw [bitFromSquare, if_pos hzero, if_pos hzero]
  · obtain ⟨y, hy⟩ := hs.resolve_left hzero
    obtain ⟨root, hroot, -, hinverse, -⟩ := exists_root hroots hzero hy
    rw [bitFromSquare, if_neg hzero, if_neg hzero, hroot, Option.bind_some, hinverse]

omit [LawfulShareRing ψ] in
theorem bitFromSquare_of_not_square (c : Setting) (key half : ψ) (batch index : Nat) (a : Share ψ ψ)
    {s : ψ} (hs : s ≠ 0) (hnone : ∀ y, y * y ≠ s) :
    bitFromSquare c key half batch index a s = .error (.sacrifice batch index) := by
  rw [bitFromSquare, if_neg hs, hroots.no_root s hnone]
  rfl

omit hroots in
/-- The shares of the bit of a value whose square is `s`. -/
def squareBit (half : ψ) (key : Nat → ψ) (a : Nat → Share ψ ψ) (s : ψ) (i : Nat) : Share ψ ψ :=
  (((a i).mulPublic (inverseRoot s)).addPublic 1 (key i) i).mulPublic half

section Values

variable {n : Nat} {key : Nat → ψ} {a : Nat → Share ψ ψ} {half s : ψ} (hn : 0 < n)

include hn

omit hroots in
theorem authentic_squareBit (ha : Authentic n key a) : Authentic n key (squareBit half key a s) :=
  ((ha.mulPublic _).addPublic hn 1).mulPublic half

/-- **The bit tells which root the value is.** -/
theorem sharedValue_squareBit (hhalf : ((1 : ψ) + 1) * half = 1)
    (hs : s = sharedValue n a * sharedValue n a) (hne : sharedValue n a ≠ 0) :
    ∃ root, RootField.sqrt? s = some root ∧ (sharedValue n a = root ∨ sharedValue n a = -root) ∧
      sharedValue n (squareBit half key a s) = if sharedValue n a = root then 1 else 0 := by
  have hsne : s ≠ 0 := fun hzero =>
    (hroots.inversesFound.eq_zero_or_eq_zero (hs.symm.trans hzero)).elim hne hne
  obtain ⟨root, hroot, hsquare, -, hone⟩ := exists_root hroots hsne hs.symm
  have hvalue : sharedValue n (squareBit half key a s)
      = (sharedValue n a * inverseRoot s + 1) * half := by
    refine (sharedValue_mulPublic _ half).trans ?_
    rw [sharedValue_addPublic hn 1 _ key, sharedValue_mulPublic]
  have hsign := hroots.inversesFound.eq_or_eq_neg (hs.symm.trans hsquare.symm)
  refine ⟨root, hroot, hsign, ?_⟩
  by_cases hsame : sharedValue n a = root
  · rw [if_pos hsame, hvalue, hsame, hone, hhalf]
  · rw [if_neg hsame, hvalue, hsign.resolve_left hsame, neg_mul, hone, neg_add_cancel, zero_mul]

end Values

omit hroots in
/-- What a party makes of the opened squares. -/
def bitsFromOpened (c : Setting) (key half : ψ) (items : List (SquarePair ψ)) (opened : List ψ) :
    Session (Sacrifice ψ) (List (Share ψ ψ)) := do
  let batch := (← get).batch
  let found ← Session.check <| (items.zip opened).zipIdx.mapM fun ((item, square), j) =>
    bitFromSquare c key half batch j item.1 square
  pure (found.filterMap id)

omit hroots [LawfulShareRing ψ] in
theorem start_bitsFromOpened {c : Setting} {key half : ψ} {N : Nat} {item : Nat → SquarePair ψ}
    {s : Nat → ψ} {st : Sacrifice ψ} {found : Except Error (List (Option (Share ψ ψ)))}
    (h : ((range N).mapM fun l => bitFromSquare c key half st.batch l (item l).1 (s l)) = found) :
    (bitsFromOpened c key half ((range N).map item) ((range N).map s)).start st
      = .done ((found.mapError Failure.error).map (·.filterMap id), st) := by
  have hindexed : (((range N).map item).zip ((range N).map s)).zipIdx
      = (range N).map fun l => ((item l, s l), l) := by
    apply ext_getElem (by simp)
    intro l _ _
    simp
  have hfound : ((((range N).map item).zip ((range N).map s)).zipIdx.mapM
      fun ((item, square), j) => bitFromSquare c key half st.batch j item.1 square) = found := by
    rw [hindexed, mapM_map]
    exact h
  rw [bitsFromOpened, Session.start_bind_of_done (Session.start_get _), Session.start_bind, hfound]
  cases found with
  | ok bits => rfl
  | error e => rfl

section Run

variable {A N : Nat} {coins : List Coins} {ledger : Ledger ψ} (hbound : coins.length < 2 ^ 64)
variable (hA : 0 < A) (hledger : ledger.Sound coins.length) (accepted : Nat)
variable {half : ψ} (hhalf : ShareField.inverse? ((1 : ψ) + 1) = some half)
variable {square : Nat → SharedSquare ψ}
variable (hvalid : ∀ l < N, (square l).Valid coins.length ledger.key)

include hbound hA hledger hhalf hvalid

omit hroots in
/-- The opened squares decide all that is computed. -/
theorem bitsFromSquares_ends {found : Nat → Except Error (List (Option (Share ψ ψ)))}
    (hfound : ∀ i, ((range N).mapM fun l => bitFromSquare ⟨⟨i, coins.length⟩, A⟩ (ledger.key i)
      half accepted l (square l i).1 (sharedValue coins.length fun i => (square l i).2)) = found i) :
    EndTogether coins.length (fun i => (bitsFromSquares ⟨⟨i, coins.length⟩, A⟩
      ((range N).map fun l => square l i)).start (standing ledger accepted i)) (Coins.tapes coins)
      fun i => ((found i).mapError Failure.error).map (·.filterMap id) := by
  have hprogram : ∀ i, (bitsFromSquares ⟨⟨i, coins.length⟩, A⟩
      ((range N).map fun l => square l i)).start (standing ledger accepted i) = (do
        let opened ← openShares ⟨⟨i, coins.length⟩, A⟩ "opened squares"
          ((range N).map fun l => (square l i).2)
        checking (MacCheck.check ⟨i, coins.length⟩)
        bitsFromOpened ⟨⟨i, coins.length⟩, A⟩ (ledger.key i) half
          ((range N).map fun l => square l i) opened).start (standing ledger accepted i) := by
    intro i
    rw [bitsFromSquares, Session.start_bind_of_done (Session.start_get _)]
    simp only [hhalf, map_map]
    rfl
  simp only [hprogram]
  exact endTogether_opened hbound hA hledger accepted (fun l hl => (hvalid l hl).square) _
    fun i => start_bitsFromOpened (hfound i)

/-- Squares give the bits of the values other than zero. -/
theorem bitsFromSquares_ends_ok
    (hsquare : ∀ l < N, sharedValue coins.length (fun i => (square l i).2) = 0 ∨
      ∃ y, y * y = sharedValue coins.length fun i => (square l i).2) :
    EndTogether coins.length (fun i => (bitsFromSquares ⟨⟨i, coins.length⟩, A⟩
      ((range N).map fun l => square l i)).start (standing ledger accepted i)) (Coins.tapes coins)
      fun i => .ok (((range N).filter fun l =>
        decide (sharedValue coins.length (fun i => (square l i).2) ≠ 0)).map fun l =>
          squareBit half ledger.key (fun i => (square l i).1)
            (sharedValue coins.length fun i => (square l i).2) i) := by
  have hends := bitsFromSquares_ends hbound hA hledger accepted hhalf hvalid fun i =>
    mapM_eq_ok fun l hl => bitFromSquare_of_square hroots ⟨⟨i, coins.length⟩, A⟩ (ledger.key i) half
      accepted l (square l i).1 (hsquare l (mem_range.mp hl))
  simp only [Except.mapError, Except.map, filterMap_map, Function.comp_def, id,
    filterMap_skip] at hends
  exact hends

/-- The first opened value that is no square is blamed. -/
theorem bitsFromSquares_ends_error {j : Nat} (hj : j < N)
    (hne : sharedValue coins.length (fun i => (square j i).2) ≠ 0)
    (hnone : ∀ y, y * y ≠ sharedValue coins.length fun i => (square j i).2)
    (hsquare : ∀ l < j, sharedValue coins.length (fun i => (square l i).2) = 0 ∨
      ∃ y, y * y = sharedValue coins.length fun i => (square l i).2) :
    EndTogether coins.length (fun i => (bitsFromSquares ⟨⟨i, coins.length⟩, A⟩
      ((range N).map fun l => square l i)).start (standing ledger accepted i)) (Coins.tapes coins)
      fun _ => .error (.error (.sacrifice accepted j)) :=
  bitsFromSquares_ends hbound hA hledger accepted hhalf hvalid fun i =>
    mapM_range_eq_error hj
      (fun l hl => bitFromSquare_of_square hroots ⟨⟨i, coins.length⟩, A⟩ (ledger.key i) half accepted l
        (square l i).1 (hsquare l hl))
      (bitFromSquare_of_not_square hroots _ _ half accepted j _ hne hnone)

end Run

end Bits

/-- Opened squares give bits.  From right squares with right tags everybody gets, for just the
values other than zero and in their order, a share of the bit that tells whether the value is the
root that is found or its negative.  If some opened value has no root, everybody fails at the first
such one. -/
def SquaresGiveBits {ψ : Type} [RootField ψ] (coins : List Coins) (A accepted : Nat)
    (ledger : Ledger ψ) : Prop :=
  ∀ (N : Nat) (square : Nat → SharedSquare ψ),
    (∀ l < N, (square l).Valid coins.length ledger.key) →
    let a l := sharedValue coins.length fun i => (square l i).1
    let s l := sharedValue coins.length fun i => (square l i).2
    let ends := AllEnd coins fun i => (bitsFromSquares ⟨⟨i, coins.length⟩, A⟩
      ((range N).map fun l => square l i)).start (standing ledger accepted i)
    ((∀ l < N, s l = a l * a l) → ∃ bit : Nat → Nat → Share ψ ψ,
      (ends fun i => .ok (((range N).filter fun l => decide (a l ≠ 0)).map fun l => bit l i)) ∧
      ∀ l < N, a l ≠ 0 → Authentic coins.length ledger.key (bit l) ∧
        ∃ root, RootField.sqrt? (s l) = some root ∧ (a l = root ∨ a l = -root) ∧
          sharedValue coins.length (bit l) = if a l = root then 1 else 0) ∧
    ∀ j < N, s j ≠ 0 → (∀ y, y * y ≠ s j) → (∀ l < j, s l = 0 ∨ ∃ y, y * y = s l) →
      ends fun _ => .error (.error (.sacrifice accepted j))

/-- Opened products give inverses.  From right triples with right tags everybody gets, for just
those whose product is not zero and in their order, its shares of the first factor and of the
inverse of it. -/
def TriplesGiveInverses {φ : Type} [ShareField φ] (coins : List Coins) (A accepted : Nat)
    (ledger : Ledger φ) : Prop :=
  ∀ (N : Nat) (triple : Nat → Candidate φ),
    (∀ l < N, (triple l).Valid coins.length ledger.key ∧ (triple l).productError coins.length = 0) →
    let a l := sharedValue coins.length fun i => (triple l i).a
    let b l := sharedValue coins.length fun i => (triple l i).b
    ∃ inverse : Nat → Nat → Share φ φ,
      AllEnd coins (fun i => (inversesFromTriples ⟨⟨i, coins.length⟩, A⟩
        ((range N).map fun l => triple l i)).start (standing ledger accepted i))
        (fun i => .ok (((range N).filter fun l => decide (a l * b l ≠ 0)).map fun l =>
          ((triple l i).a, inverse l i))) ∧
      ∀ l < N, a l * b l ≠ 0 → Authentic coins.length ledger.key (inverse l) ∧
        a l * sharedValue coins.length (inverse l) = 1

theorem squaresGiveBits {ψ : Type} [RootField ψ] [LawfulShareRing ψ] (hroots : RootsFound ψ)
    (hodd : (1 : ψ) + 1 ≠ 0) {coins : List Coins} (hparties : 0 < coins.length)
    (hbound : coins.length < 2 ^ 64) {A : Nat} (hA : 0 < A) (accepted : Nat) {ledger : Ledger ψ}
    (hledger : ledger.Sound coins.length) : SquaresGiveBits coins A accepted ledger := by
  intro N square hvalid a s ends
  obtain ⟨half, hhalf, hone⟩ := hroots.inverse _ hodd
  refine ⟨fun hright => ?_, fun j hj hne hnone hsquare => ?_⟩
  · have hends := bitsFromSquares_ends_ok hroots hbound hA hledger accepted hhalf hvalid
      fun l hl => .inr ⟨a l, (hright l hl).symm⟩
    refine ⟨fun l => squareBit half ledger.key (fun i => (square l i).1) (s l), ?_, fun l hl hne => ?_⟩
    · -- a value and its square are zero together
      have hfilter : ((range N).filter fun l => decide (s l ≠ 0))
          = (range N).filter fun l => decide (a l ≠ 0) := by
        refine filter_congr fun l hl => ?_
        rw [decide_eq_decide, hright l (mem_range.mp hl), not_iff_not]
        refine ⟨fun hzero => (hroots.inversesFound.eq_zero_or_eq_zero hzero).elim id id, fun hzero => ?_⟩
        rw [hzero, mul_zero]
      rw [← hfilter]
      exact hends.allEnd hparties
    · exact ⟨authentic_squareBit hparties (hvalid l hl).root,
        sharedValue_squareBit hroots hparties hone (hright l hl) hne⟩
  · exact (bitsFromSquares_ends_error hroots hbound hA hledger accepted hhalf hvalid hj hne hnone
      hsquare).allEnd hparties

theorem triplesGiveInverses {φ : Type} [ShareField φ] [LawfulShareRing φ]
    (hfield : InversesFound φ) {coins : List Coins} (hparties : 0 < coins.length)
    (hbound : coins.length < 2 ^ 64) {A : Nat} (hA : 0 < A) (accepted : Nat) {ledger : Ledger φ}
    (hledger : ledger.Sound coins.length) : TriplesGiveInverses coins A accepted ledger := by
  intro N triple hright a b
  have hproduct : ∀ l < N, sharedValue coins.length (fun i => (triple l i).c) = a l * b l :=
    fun l hl => sub_eq_zero.mp (hright l hl).2
  have hends := inversesFromTriples_ends hbound hA hledger accepted hfield
    fun l hl => (hright l hl).1
  refine ⟨fun l i => (triple l i).b.mulPublic ((ShareField.inverse?
    (sharedValue coins.length fun i => (triple l i).c)).getD 0), ?_, fun l hl hne => ⟨?_, ?_⟩⟩
  · have hfilter : ((range N).filter fun l =>
        decide (sharedValue coins.length (fun i => (triple l i).c) ≠ 0))
          = (range N).filter fun l => decide (a l * b l ≠ 0) :=
      filter_congr fun l hl => by rw [hproduct l (mem_range.mp hl)]
    rw [← hfilter]
    exact hends.allEnd hparties
  · exact (hright l hl).1.b.mulPublic _
  · obtain ⟨i, hi, hone⟩ := hfield.inverse _ hne
    rw [sharedValue_mulPublic, hproduct l hl, hi, Option.getD_some, ← mul_assoc]
    exact hone

/-- **Derived bits and inverses are what they claim to be**, whatever the number of parties: bits
in the two fields with roots, inverses in all fields. -/
theorem derived_right {coins : List Coins} (hparties : 0 < coins.length)
    (hbound : coins.length < 2 ^ 64) {A : Nat} (hA : 0 < A) (accepted : Nat) :
    (∀ ledger : Ledger Mersenne61, ledger.Sound coins.length →
      SquaresGiveBits coins A accepted ledger) ∧
    (∀ ledger : Ledger Mersenne127, ledger.Sound coins.length →
      SquaresGiveBits coins A accepted ledger) ∧
    ∀ (F : FieldName) (ledger : Ledger F.Carrier), ledger.Sound coins.length →
      TriplesGiveInverses coins A accepted ledger :=
  ⟨fun _ => squaresGiveBits rootsFound61 (by decide) hparties hbound hA accepted,
    fun _ => squaresGiveBits rootsFound127 (by decide) hparties hbound hA accepted,
    fun F _ => triplesGiveInverses F.inversesFound hparties hbound hA accepted⟩

section Samples

/-- Right squares of `3`, `0` and `9`. -/
def zeroBetween (l i : Nat) : SquarePair Mersenne61 :=
  if l = 1 then (sampleShare 0, sampleShare 0) else rightSquare l i

/-- A right square, and `-1`, which has no root. -/
def rootMissing (l i : Nat) : SquarePair Mersenne61 :=
  if l = 0 then rightSquare 0 i else (sampleShare i, sampleShare (if i = 0 then 2 ^ 61 - 2 else 0))

theorem valid_zeroBetween {l : Nat} (hl : l < 3) :
    SharedSquare.Valid (zeroBetween l) 3 fun _ => (1 : Mersenne61) := by
  interval_cases l <;> (constructor <;> (unfold Authentic; decide))

theorem valid_rootMissing {l : Nat} (hl : l < 2) :
    SharedSquare.Valid (rootMissing l) 3 fun _ => (1 : Mersenne61) := by
  interval_cases l <;> (constructor <;> (unfold Authentic; decide))

/-- Three parties get two bits from three squares, as one is zero; they fail at the second of two
opened values, as it has no root; and they get two inverses from two triples. -/
theorem derived_right_three :
    let coins := [Coins.ofSeed 0, Coins.ofSeed 1, Coins.ofSeed 2]
    let st i := standing (⟨fun _ => 1, []⟩ : Ledger Mersenne61) 4 i
    (∃ bit : Nat → Nat → Share Mersenne61 Mersenne61,
      AllEnd coins (fun i => (bitsFromSquares ⟨⟨i, 3⟩, 1⟩
        ((range 3).map fun l => zeroBetween l i)).start (st i))
        (fun i => .ok [bit 0 i, bit 2 i])) ∧
    AllEnd coins (fun i => (bitsFromSquares ⟨⟨i, 3⟩, 1⟩
      ((range 2).map fun l => rootMissing l i)).start (st i))
      (fun _ => .error (.error (.sacrifice 4 1))) ∧
    ∃ inverse : Nat → Nat → Share Mersenne61 Mersenne61,
      AllEnd coins (fun i => (inversesFromTriples ⟨⟨i, 3⟩, 1⟩
        ((range 2).map fun l => rightProduct l i)).start (st i))
        (fun i => .ok [((rightProduct 0 i).a, inverse 0 i), ((rightProduct 1 i).a, inverse 1 i)]) ∧
      sharedValue 3 (fun i => (rightProduct 0 i).a) * sharedValue 3 (inverse 0) = 1 := by
  have hledger : (⟨fun _ => 1, []⟩ : Ledger Mersenne61).Sound 3 := by
    intro p hp
    cases hp
  obtain ⟨hsmall, -, hinverses⟩ := @derived_right [.ofSeed 0, .ofSeed 1, .ofSeed 2] (by decide)
    (by decide) 1 (by decide) 4
  refine ⟨?_, ?_, ?_⟩
  · obtain ⟨bit, hends, -⟩ := (hsmall _ hledger 3 zeroBetween fun l hl => valid_zeroBetween hl).1
      fun l hl => by interval_cases l <;> decide
    exact ⟨bit, hends⟩
  · refine (hsmall _ hledger 2 rootMissing fun l hl => valid_rootMissing hl).2 1 (by decide)
      (by decide) ?_ fun l hl => .inr ⟨3, ?_⟩
    · exact Residue.mul_self_ne_neg_one prime_mersenne61 (by decide)
    · interval_cases l
      decide
  · obtain ⟨inverse, hends, hright⟩ := hinverses .mersenne61 _ hledger 2 rightProduct fun l hl =>
      ⟨valid_rightProduct (by omega), productError_rightProduct (by omega)⟩
    exact ⟨inverse, hends, (hright 0 (by decide) (by decide)).2⟩

end Samples

end Sacrifice

end Beaver
