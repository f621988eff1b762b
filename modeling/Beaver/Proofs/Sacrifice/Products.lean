import Mathlib
import Beaver.Proofs.LinearSteps
import Beaver.Proofs.Sacrifice.Squares

/-!
# Checking products with triples

A product is checked with a triple `(a, b, c)` of its own: the parties open `ε = x - a` and
`δ = y - b` and have shares of `c + ε * b + δ * a + ε * δ - target`, which is
`x * y + (c - a * b) - target` (`sharedValue_productTau`).  Public summands are added by party 0
alone.  Bits are products `b * b` that have to be `b`, inverses are products that have to be one.

With squares, these are all checks that are made of batches (`squares_bits_inverses_decided`).
-/

namespace Beaver

open List
open ShareRing

variable {φ : Type} [ShareField φ] [LawfulShareRing φ] {n A : Nat} {key : Nat → φ}

section Public

variable {x : Nat → Share φ φ} (hn : 0 < n) (c : φ)

include hn

theorem sharedValue_addPublic (x : Nat → Share φ φ) (key : Nat → φ) :
    sharedValue n (fun i => (x i).addPublic c (key i) i) = sharedValue n x + c :=
  LinearStep.total_on hn (.addPublic c) (fun i => (x i).value) fun i => (x i).value

theorem Authentic.addPublic (hx : Authentic n key x) :
    Authentic n key fun i => (x i).addPublic c (key i) i :=
  (LinearStep.total_tags hx hx (.addPublic c)).trans
    (congrArg _ (sharedValue_addPublic hn c x key).symm)

end Public

namespace Sacrifice

/-- All parties' shares of a product to check. -/
abbrev SharedProduct (φ : Type) := Nat → Product φ

namespace SharedProduct

variable (p : SharedProduct φ)

/-- What is checked to be zero. -/
def value (n : Nat) : φ :=
  sharedValue n (fun i => (p i).x) * sharedValue n (fun i => (p i).y)
    + Candidate.productError (fun i => (p i).helper) n - sharedValue n (fun i => (p i).target)

/-- Everything has the right tags. -/
structure Valid (n : Nat) (key : Nat → φ) : Prop where
  x : Authentic n key fun i => (p i).x
  y : Authentic n key fun i => (p i).y
  target : Authentic n key fun i => (p i).target
  helper : Candidate.Valid (fun i => (p i).helper) n key

end SharedProduct

/-- The masked factors of a product. -/
def epsilon (p : SharedProduct φ) (i : Nat) : Share φ φ :=
  (p i).x - (p i).helper.a

@[inherit_doc epsilon]
def delta (p : SharedProduct φ) (i : Nat) : Share φ φ :=
  (p i).y - (p i).helper.b

/-- The masked factors of a batch: all first ones, then all second ones. -/
def productMasks (items : List (SharedProduct φ)) : List (Nat → Share φ φ) :=
  items.map epsilon ++ items.map delta

/-- The check value of a product. -/
def productTau (n : Nat) (key : Nat → φ) (p : SharedProduct φ) (i : Nat) : Share φ φ :=
  ((p i).helper.c + (p i).helper.b.mulPublic (sharedValue n (epsilon p))
    + (p i).helper.a.mulPublic (sharedValue n (delta p))).addPublic
      (sharedValue n (epsilon p) * sharedValue n (delta p)) (key i) i - (p i).target

/-- **The check value is the error of the product**, with that of the triple added. -/
theorem sharedValue_productTau (hn : 0 < n) (key : Nat → φ) (p : SharedProduct φ) :
    sharedValue n (productTau n key p) = p.value n := by
  have htau : sharedValue n (productTau n key p) = sharedValue n (fun i => (p i).helper.c)
      + sharedValue n (fun i => (p i).helper.b) * sharedValue n (epsilon p)
      + sharedValue n (fun i => (p i).helper.a) * sharedValue n (delta p)
      + sharedValue n (epsilon p) * sharedValue n (delta p)
      - sharedValue n (fun i => (p i).target) := by
    refine (sharedValue_sub _ _).trans ?_
    rw [sharedValue_addPublic hn _ _ key, sharedValue_add, sharedValue_add, sharedValue_mulPublic,
      sharedValue_mulPublic]
  have hepsilon : sharedValue n (epsilon p) = sharedValue n (fun i => (p i).x)
      - sharedValue n (fun i => (p i).helper.a) := sharedValue_sub _ _
  have hdelta : sharedValue n (delta p) = sharedValue n (fun i => (p i).y)
      - sharedValue n (fun i => (p i).helper.b) := sharedValue_sub _ _
  rw [htau, hepsilon, hdelta, SharedProduct.value, Candidate.productError]
  ring

/-- The shares of the factors of product number `j`. -/
def productSuspects (items : List (SharedProduct φ)) (j : Nat) : List (Nat → Share φ φ) :=
  match items[j]? with
  | some p => [fun i => (p i).x, fun i => (p i).y]
  | none => []

section Batch

variable (hA : 0 < A) (hn : n < 2 ^ 64) {items : List (SharedProduct φ)}

include hA hn

/-- Up to the check values everybody does the same. -/
theorem productBatch_start (b : Ledger φ) (start accepted : Nat) {tape tape' : Nat → Tape}
    {r : Nat → Except Failure Unit × Sacrifice φ}
    (h : Gives n (fun i => (conclude ⟨⟨i, n⟩, A⟩ start ((items.map (productTau n b.key)).map (· i))
        (Gives.nextStream n tape) (fun j => (productSuspects items j).map (· i)) ()).start
          (standing (b.opened n (productMasks items)) accepted i))
      (fun i => (tape i).tail.tail) r tape') :
    Gives n (fun i => (productBatch ⟨⟨i, n⟩, A⟩ start (items.map (· i))).start
      (standing b accepted i)) tape r tape' := by
  refine Gives.andThen (Gives.get _ _) ?_
  refine Gives.andThen (Gives.shared hn (standing b accepted) tape) ?_
  have hopen := Gives.openInBatches (n := n) hA (productMasks items) "product check" b accepted
    fun i => (tape i).tail.tail
  simp only [productMasks, map_append, map_map, Function.comp_def, epsilon, delta] at hopen
  simp only [map_map, Function.comp_def, length_map]
  refine Gives.andThen hopen ?_
  -- what was opened is the masks of all first factors, then those of all second factors
  rw [take_left' (length_map _), drop_left' (length_map _)]
  simp only [zip_map', map_map, Function.comp_def]
  refine h.congr fun i _ => ?_
  rw [map_map]
  congr 2
  funext j
  rw [productSuspects, getElem?_map]
  cases items[j]? with
  | none => rfl
  | some p => rfl

/-- The errors of the products decide a batch. -/
theorem decides_productBatch (hparties : 0 < n) (hvalid : ∀ p ∈ items, p.Valid n key) :
    Decides n key (fun _ => (items.map (productTau n key)).map (sharedValue n)) id
      (fun start i => productBatch ⟨⟨i, n⟩, A⟩ start (items.map (· i))) fun _ => () := by
  refine decides_of_conclude hA hn (fun _ => productMasks items) _ _ (productSuspects items) ?_ ?_ ?_
  · rintro b rfl start accepted tape _ _ h
    exact productBatch_start hA hn b start accepted h
  · intro _ x hx
    rcases mem_append.mp hx with hx | hx
    · obtain ⟨p, hp, rfl⟩ := mem_map.mp hx
      exact (hvalid p hp).x.sub (hvalid p hp).helper.a
    · obtain ⟨p, hp, rfl⟩ := mem_map.mp hx
      exact (hvalid p hp).y.sub (hvalid p hp).helper.b
  · intro _ x hx
    obtain ⟨p, hp, rfl⟩ := mem_map.mp hx
    have h := hvalid p hp
    exact Authentic.sub (.addPublic hparties _
      ((h.helper.c.add (h.helper.b.mulPublic _)).add (h.helper.a.mulPublic _))) h.target

/-- Checking products batch after batch is a loop. -/
theorem batchLoop_eachProducts (hparties : 0 < n) {batches : List (List (SharedProduct φ))}
    (hvalid : ∀ items ∈ batches, ∀ p ∈ items, p.Valid n key) :
    BatchLoop n key batches.length (fun k => ((batches.take k).map length).sum)
      (fun k _ => ((batches[k]?.getD []).map (productTau n key)).map (sharedValue n)) id
      (fun k i => eachProducts ⟨⟨i, n⟩, A⟩ ((batches.take k).map length).sum
        ((batches.drop k).map (·.map (· i)))) fun _ => () where
  step k hk := by
    have hitems : batches[k]?.getD [] = batches[k] := by
      rw [getElem?_eq_getElem hk, Option.getD_some]
    refine ⟨_, fun start i => productBatch ⟨⟨i, n⟩, A⟩ start (batches[k].map (· i)), fun _ => (),
      fun i _ => eachProducts ⟨⟨i, n⟩, A⟩ ((batches.take (k + 1)).map length).sum
        ((batches.drop (k + 1)).map (·.map (· i))), ?_, fun i => ⟨?_, rfl⟩⟩
    · rw [hitems]
      exact decides_productBatch hA hn hparties (hvalid _ (getElem_mem hk))
    · rw [drop_eq_getElem_cons hk, map_cons, eachProducts, length_map,
        take_succ_eq_append_getElem hk, map_append, sum_append, map_singleton,
        sum_singleton]
  done i := by
    rw [drop_length]
    rfl

end Batch

section Helpers

variable {c : Setting} {N K : Nat} (st : Sacrifice φ)

omit [LawfulShareRing φ] in
/-- With enough triples each product is checked with its own. -/
theorem start_products {x y target : Nat → Share φ φ} {helper : Nat → Triple φ φ} (hK : N ≤ K) :
    (products c ((range N).map fun l => (x l, y l)) ((range N).map target)
        ((range K).map helper)).start st
      = (eachProducts c 0 (batches c.amortize
          ((range N).map fun l => ⟨x l, y l, target l, helper l⟩))).start st := by
  have henough : ¬ ((range K).map helper).length < ((range N).map fun l => (x l, y l)).length := by
    simpa using hK
  simp only [products, if_neg henough]
  congr 3
  apply ext_getElem
  · simp [hK]
  · intro l _ _
    simp

omit [LawfulShareRing φ] in
/-- With too few nothing is sent. -/
theorem start_products_of_lt {factors : List (Share φ φ × Share φ φ)} {targets : List (Share φ φ)}
    {helpers : List (Triple φ φ)} (h : helpers.length < factors.length) :
    (products c factors targets helpers).start st
      = .done (.error (.error (.length factors.length helpers.length)), st) := by
  simp only [products, if_pos h]
  rfl

end Helpers

section Decision

variable {coins : List Coins} (hparties : 0 < coins.length) (hbound : coins.length < 2 ^ 64)
variable (hA : 0 < A) {ledger : Ledger φ} (hledger : ledger.Sound coins.length) {N : Nat}

include hparties hbound hA hledger

/-- **The errors of products decide their check.** -/
theorem eachProducts_decided {product : Nat → SharedProduct φ}
    (hvalid : ∀ l < N, (product l).Valid coins.length ledger.key) (accepted : Nat) :
    DecidedBy A N accepted (tossedStream coins) (fun b j => (product (A * b + j)).value coins.length)
      (fun _ => ()) (EndTogether coins.length (fun i => (eachProducts ⟨⟨i, coins.length⟩, A⟩ 0
        (batches A ((range N).map fun l => product l i))).start (standing ledger accepted i))
        (Coins.tapes coins)) := by
  have hitems : ∀ items ∈ batches A ((range N).map product), ∀ p ∈ items,
      p.Valid coins.length ledger.key := by
    intro items hitems p hp
    have hmem := mem_flatten_of_mem hitems hp
    rw [flatten_batches hA] at hmem
    obtain ⟨l, hl, rfl⟩ := mem_map.mp hmem
    exact hvalid l (mem_range.mp hl)
  have hloop := batchLoop_eachProducts hA hbound hparties hitems
  have hcount : ∀ k, k < (batches A ((range N).map product)).length ↔ A * k < N := by
    intro k
    rw [batches_range hA, length_map, length_range, Nat.lt_div_iff_mul_lt hA,
      Nat.mul_comm k A]
    omega
  have hprogram : ∀ i, eachProducts ⟨⟨i, coins.length⟩, A⟩ 0
      (batches A ((range N).map fun l => product l i))
        = eachProducts ⟨⟨i, coins.length⟩, A⟩ 0
          ((batches A ((range N).map product)).map (·.map (· i))) := by
    intro i
    rw [← batches_map hA, map_map]
    rfl
  refine (hloop.decidedBy hledger hcount ?_ ?_ accepted).map ?_ ?_
  · intro k hk
    have hlt := (hcount k).mp hk
    rw [batches_range hA] at hk ⊢
    rw [length_map, length_range] at hk
    refine sum_length_take (Nat.le_of_lt hk) fun b hb => ?_
    have hle : A * (b + 1) ≤ A * k := Nat.mul_le_mul_left A hb
    rw [Nat.mul_succ] at hle
    rw [length_map, length_range, Nat.min_eq_left (by omega)]
  · intro k hk
    rw [getElem?_eq_getElem hk]
    simp only [batches_range hA, getElem_map, getElem_range, Option.getD_some, map_map]
    exact map_congr_left fun j _ => sharedValue_productTau hparties _ _
  · intro h
    exact h.congr fun i _ => by rw [hprogram i]; rfl
  · intro e h
    exact h.congr fun i _ => by rw [hprogram i]; rfl

variable {K : Nat} (hK : N ≤ K) {helper : Nat → Candidate φ}
variable (hhelper : ∀ l < N, (helper l).Valid coins.length ledger.key) (accepted : Nat)

include hK hhelper

theorem products_decided {x y target : Nat → Nat → Share φ φ}
    (hx : ∀ l < N, Authentic coins.length ledger.key (x l))
    (hy : ∀ l < N, Authentic coins.length ledger.key (y l))
    (htarget : ∀ l < N, Authentic coins.length ledger.key (target l)) :
    DecidedBy A N accepted (tossedStream coins)
      (fun b j => sharedValue coins.length (x (A * b + j)) * sharedValue coins.length (y (A * b + j))
        + (helper (A * b + j)).productError coins.length
        - sharedValue coins.length (target (A * b + j)))
      (fun _ => ()) (EndTogether coins.length (fun i => (products ⟨⟨i, coins.length⟩, A⟩
        ((range N).map fun l => (x l i, y l i)) ((range N).map fun l => target l i)
        ((range K).map fun l => helper l i)).start (standing ledger accepted i))
        (Coins.tapes coins)) := by
  have hvalid : ∀ l < N, SharedProduct.Valid (fun i => ⟨x l i, y l i, target l i, helper l i⟩)
      coins.length ledger.key :=
    fun l hl => ⟨hx l hl, hy l hl, htarget l hl, hhelper l hl⟩
  simp only [start_products _ hK]
  exact eachProducts_decided hparties hbound hA hledger hvalid accepted

theorem bits_decided {bit : Nat → Nat → Share φ φ}
    (hbit : ∀ l < N, Authentic coins.length ledger.key (bit l)) :
    DecidedBy A N accepted (tossedStream coins)
      (fun b j => sharedValue coins.length (bit (A * b + j)) * sharedValue coins.length (bit (A * b + j))
        + (helper (A * b + j)).productError coins.length
        - sharedValue coins.length (bit (A * b + j)))
      (fun i => (range N).map fun l => bit l i)
      (EndTogether coins.length (fun i => (bits ⟨⟨i, coins.length⟩, A⟩
        ((range N).map fun l => bit l i) ((range K).map fun l => helper l i)).start
          (standing ledger accepted i)) (Coins.tapes coins)) := by
  simp only [bits, map_map, Function.comp_def]
  exact (products_decided hparties hbound hA hledger hK hhelper accepted hbit hbit hbit).andReturn _

theorem inverses_decided {pair : Nat → Nat → Share φ φ × Share φ φ}
    (hfirst : ∀ l < N, Authentic coins.length ledger.key fun i => (pair l i).1)
    (hsecond : ∀ l < N, Authentic coins.length ledger.key fun i => (pair l i).2) :
    DecidedBy A N accepted (tossedStream coins)
      (fun b j => sharedValue coins.length (fun i => (pair (A * b + j) i).1)
          * sharedValue coins.length (fun i => (pair (A * b + j) i).2)
        + (helper (A * b + j)).productError coins.length - 1)
      (fun i => (range N).map fun l => pair l i)
      (EndTogether coins.length (fun i => (inverses ⟨⟨i, coins.length⟩, A⟩
        ((range N).map fun l => pair l i) ((range K).map fun l => helper l i)).start
          (standing ledger accepted i)) (Coins.tapes coins)) := by
  have hone : sharedValue coins.length
      (fun i => (0 : Share φ φ).addPublic 1 (ledger.key i) i) = 1 := by
    have hzero : sharedValue coins.length (fun _ => (0 : Share φ φ)) = 0 := total_zero _
    rw [sharedValue_addPublic hparties 1 (fun _ => 0) ledger.key, hzero, zero_add]
  have hdecided := (products_decided hparties hbound hA hledger hK hhelper accepted hfirst hsecond
    fun _ _ => Authentic.zero.addPublic hparties 1).andReturn fun i =>
      (range N).map fun l => pair l i
  simp only [hone] at hdecided
  have hprogram : ∀ i, (inverses ⟨⟨i, coins.length⟩, A⟩ ((range N).map fun l => pair l i)
      ((range K).map fun l => helper l i)).start (standing ledger accepted i)
        = (products ⟨⟨i, coins.length⟩, A⟩ ((range N).map fun l => ((pair l i).1, (pair l i).2))
            ((range N).map fun _ => (0 : Share φ φ).addPublic 1 (ledger.key i) i)
            ((range K).map fun l => helper l i) >>= fun _ =>
              pure ((range N).map fun l => pair l i)).start (standing ledger accepted i) := by
    intro i
    rw [inverses, Session.start_bind_of_done (Session.start_get _)]
    simp only [map_map]
    rfl
  simpa only [hprogram] using hdecided

end Decision

/-- **Squares, bits and inverses are checked exactly.**  Items that are shared with the right tags
but may be wrong are checked by any number of parties, `A` or `2 * A` at a time.  Squares are
compared in pairs by the tossed `t`, and the first halves of all batches are kept.  Bits and
inverses take a triple each, of which there may be more than are needed, and are returned as they
are.  In all three cases the weighted sums of the check values decide, batch by batch, and a
failure is blamed on the first item whose value is not zero.  If triples are missing, there is an
error at once. -/
theorem squares_bits_inverses_decided {F : FieldName} {coins : List Coins}
    (hparties : 0 < coins.length) (hbound : coins.length < 2 ^ 64) {A : Nat} (hA : 0 < A)
    {ledger : Ledger F.Carrier} (hledger : ledger.Sound coins.length) (accepted : Nat) :
    let n := coins.length
    let c i : Setting := ⟨⟨i, n⟩, A⟩
    let t b : F.Carrier := (sample (tossedStream coins b)).1
    let value := sharedValue (τ := F.Carrier) (μ := F.Carrier) n
    (∀ N < 2 ^ 64, ∀ square : Nat → SharedSquare F.Carrier,
      (∀ l < N, (square l).Valid n ledger.key) →
      DecidedBy A (N / 2) accepted (fun b => (sample (α := F.Carrier) (tossedStream coins b)).2)
        (fun b j => t b * t b * (square (2 * A * b + j)).squareError n
          - (square (2 * A * b + min A (N / 2 - A * b) + j)).squareError n)
        (fun i => (range (N / 2)).map fun l => square (2 * A * (l / A) + l % A) i)
        (AllEnd coins fun i => (squares (c i) ((range N).map fun l => square l i)).start
          (standing ledger accepted i))) ∧
    (∀ N K, N ≤ K → ∀ helper : Nat → Candidate F.Carrier,
      (∀ l < N, (helper l).Valid n ledger.key) →
      (∀ bit : Nat → Nat → Share F.Carrier F.Carrier, (∀ l < N, Authentic n ledger.key (bit l)) →
        DecidedBy A N accepted (tossedStream coins)
          (fun b j => value (bit (A * b + j)) * value (bit (A * b + j))
            + (helper (A * b + j)).productError n - value (bit (A * b + j)))
          (fun i => (range N).map fun l => bit l i)
          (AllEnd coins fun i => (bits (c i) ((range N).map fun l => bit l i)
            ((range K).map fun l => helper l i)).start (standing ledger accepted i))) ∧
      ∀ pair : Nat → Nat → Share F.Carrier F.Carrier × Share F.Carrier F.Carrier,
        (∀ l < N, Authentic n ledger.key fun i => (pair l i).1) →
        (∀ l < N, Authentic n ledger.key fun i => (pair l i).2) →
        DecidedBy A N accepted (tossedStream coins)
          (fun b j => value (fun i => (pair (A * b + j) i).1) * value (fun i => (pair (A * b + j) i).2)
            + (helper (A * b + j)).productError n - 1)
          (fun i => (range N).map fun l => pair l i)
          (AllEnd coins fun i => (inverses (c i) ((range N).map fun l => pair l i)
            ((range K).map fun l => helper l i)).start (standing ledger accepted i))) ∧
    ∀ (s : Setting) (helpers : List (Triple F.Carrier F.Carrier)) (st : Sacrifice F.Carrier),
      (∀ items, helpers.length < items.length → (bits s items helpers).start st
        = .done (.error (.error (.length items.length helpers.length)), st)) ∧
      ∀ pairs, helpers.length < pairs.length → (inverses s pairs helpers).start st
        = .done (.error (.error (.length pairs.length helpers.length)), st) := by
  intro n c t value
  refine ⟨fun N hN square hvalid => ?_, fun N K hK helper hhelper => ⟨fun bit hbit => ?_,
    fun pair hfirst hsecond => ?_⟩, fun s helpers st => ⟨fun items h => ?_, fun pairs h => ?_⟩⟩
  · exact (squares_decided hbound hA hN hledger hvalid accepted).map (·.allEnd hparties)
      fun _ h => h.allEnd hparties
  · exact (bits_decided hparties hbound hA hledger hK hhelper accepted hbit).map
      (·.allEnd hparties) fun _ h => h.allEnd hparties
  · exact (inverses_decided hparties hbound hA hledger hK hhelper accepted hfirst hsecond).map
      (·.allEnd hparties) fun _ h => h.allEnd hparties
  · rw [bits, Session.start_bind, start_products_of_lt st (by simpa using h), length_map]
    rfl
  · rw [inverses, Session.start_bind_of_done (Session.start_get _)]
    refine (Session.start_bind _ _ _).trans ?_
    rw [start_products_of_lt st h]
    rfl

section Samples

/-- A share whose tag is right under the key `3`. -/
def sampleShare (v : Nat) : Share Mersenne61 Mersenne61 := ⟨Residue.ofNat v, Residue.ofNat (3 * v)⟩

/-- Shares of `3 * l + 3` and its square. -/
def rightSquare (l i : Nat) : SquarePair Mersenne61 :=
  (sampleShare (l + i), sampleShare (3 * (l + 1) ^ 2))

/-- Shares of the bits `0, 1, 0, 1, ...`, all held by party 0. -/
def rightBit (l i : Nat) : Share Mersenne61 Mersenne61 :=
  sampleShare (if i = 0 then l % 2 else 0)

/-- Shares of `2` and its inverse. -/
def rightInverse (i : Nat) : Share Mersenne61 Mersenne61 × Share Mersenne61 Mersenne61 :=
  (sampleShare (if i = 0 then 2 else 0), sampleShare (if i = 0 then 2 ^ 60 else 0))

theorem valid_rightSquare {l : Nat} (hl : l < 5) :
    SharedSquare.Valid (rightSquare l) 3 fun _ => (1 : Mersenne61) := by
  interval_cases l <;> (constructor <;> (unfold Authentic; decide))

theorem squareError_rightSquare {l : Nat} (hl : l < 5) :
    SharedSquare.squareError (rightSquare l) 3 = 0 := by
  interval_cases l <;> decide

theorem authentic_rightBit {l : Nat} (hl : l < 3) :
    Authentic 3 (fun _ => (1 : Mersenne61)) (rightBit l) := by
  interval_cases l <;> (unfold Authentic; decide)

theorem square_rightBit {l : Nat} (hl : l < 3) :
    sharedValue 3 (rightBit l) * sharedValue 3 (rightBit l) = sharedValue 3 (rightBit l) := by
  interval_cases l <;> decide

theorem authentic_rightInverse :
    Authentic 3 (fun _ => (1 : Mersenne61)) (fun i => (rightInverse i).1) ∧
      Authentic 3 (fun _ => (1 : Mersenne61)) (fun i => (rightInverse i).2) := by
  unfold Authentic
  decide

theorem product_rightInverse :
    sharedValue 3 (fun i => (rightInverse i).1) * sharedValue 3 (fun i => (rightInverse i).2) = 1 := by
  decide

/-- Three parties keep two of five right squares, accept three bits with the first of five
triples and two inverses with as many, and refuse bits without triples. -/
theorem squares_bits_inverses_decided_five :
    let coins := [Coins.ofSeed 0, Coins.ofSeed 1, Coins.ofSeed 2]
    let st i := standing (⟨fun _ => 1, []⟩ : Ledger Mersenne61) 4 i
    AllEnd coins (fun i => (squares ⟨⟨i, 3⟩, 1⟩ ((range 5).map fun l => rightSquare l i)).start
      (st i)) (fun i => .ok [rightSquare 0 i, rightSquare 2 i]) ∧
    AllEnd coins (fun i => (bits ⟨⟨i, 3⟩, 1⟩ ((range 3).map fun l => rightBit l i)
      ((range 5).map fun l => rightProduct l i)).start (st i))
      (fun i => .ok [rightBit 0 i, rightBit 1 i, rightBit 2 i]) ∧
    AllEnd coins (fun i => (inverses ⟨⟨i, 3⟩, 1⟩ ((range 2).map fun _ => rightInverse i)
      ((range 2).map fun l => rightProduct l i)).start (st i))
      (fun i => .ok [rightInverse i, rightInverse i]) ∧
    (bits ⟨⟨0, 3⟩, 1⟩ [rightBit 0 0] []).start (st 0) = .done (.error (.error (.length 1 0)), st 0) := by
  have hledger : (⟨fun _ => 1, []⟩ : Ledger Mersenne61).Sound 3 := by
    intro p hp
    cases hp
  obtain ⟨hsquares, hproducts, hfew⟩ := @squares_bits_inverses_decided .mersenne61
    [.ofSeed 0, .ofSeed 1, .ofSeed 2] (by decide) (by decide) 1 (by decide) ⟨fun _ => 1, []⟩ hledger 4
  have hbits := (hproducts 3 5 (by decide) rightProduct fun l hl => valid_rightProduct (by omega)).1
    rightBit fun l hl => authentic_rightBit hl
  have hinverses := (hproducts 2 2 (by decide) rightProduct fun l hl =>
    valid_rightProduct (by omega)).2 (fun _ => rightInverse) (fun _ _ => authentic_rightInverse.1)
      fun _ _ => authentic_rightInverse.2
  refine ⟨?_, ?_, ?_, (hfew ⟨⟨0, 3⟩, 1⟩ [] _).1 [rightBit 0 0] (by decide)⟩
  · refine (hsquares 5 (by decide) rightSquare fun l hl => valid_rightSquare hl).accepts fun b hb =>
      weightedSum_eq_zero fun j hj => ?_
    show _ * SharedSquare.squareError (rightSquare (2 * 1 * b + j)) 3
      - SharedSquare.squareError (rightSquare (2 * 1 * b + min 1 (5 / 2 - 1 * b) + j)) 3 = 0
    rw [squareError_rightSquare (by omega), squareError_rightSquare (by omega), mul_zero, sub_zero]
  · refine hbits.accepts fun b hb => weightedSum_eq_zero fun j hj => ?_
    show sharedValue 3 (rightBit (1 * b + j)) * sharedValue 3 (rightBit (1 * b + j))
      + Candidate.productError (rightProduct (1 * b + j)) 3 - sharedValue 3 (rightBit (1 * b + j)) = 0
    rw [square_rightBit (by omega), productError_rightProduct (by omega), add_zero, sub_self]
  · refine hinverses.accepts fun b hb => weightedSum_eq_zero fun j hj => ?_
    show sharedValue 3 (fun i => (rightInverse i).1) * sharedValue 3 (fun i => (rightInverse i).2)
      + Candidate.productError (rightProduct (1 * b + j)) 3 - 1 = 0
    rw [product_rightInverse, productError_rightProduct (by omega), add_zero, sub_self]

end Samples

end Sacrifice

end Beaver
