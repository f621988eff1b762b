import Mathlib
import Beaver.Proofs.LinearEvaluation.Columns

/-!
# Pairs of columns

The check compares pairs of different columns.  For each combination of key bits the input
holder hashes the sum or the difference of the two rows that these bits select; the key
holder knows one of the four combinations and infers the opposite one from the
corrections.  With errors in the corrections, what it infers is off by the difference of
the errors of the two columns (`inferred_eq`).  So the check of a pair finds out whether
these errors are equal, as far as digests tell their inputs apart (`verifyPair_iff`).
-/

namespace Beaver

open List
open ShareRing

/-- What is drawn below a bound is below it. -/
theorem WordBuffer.below_lt {γ : Type} [WordGenerator γ] {range : Nat} (h : 0 < range)
    (b : WordBuffer γ) : (b.below range).1 < range := by
  have hword : ∀ w : UInt32, w.toNat * range + range ≤ Nat.pow 2 32 * range := by
    intro w
    have hlt : w.toNat + 1 ≤ Nat.pow 2 32 := w.toNat_lt
    calc w.toNat * range + range = (w.toNat + 1) * range := by ring
      _ ≤ Nat.pow 2 32 * range := Nat.mul_le_mul_right range hlt
  have hpow : Nat.pow 2 32 = 4294967296 := rfl
  have hfirst := hword b.next32.1
  have hsecond := hword b.next32.2.next32.1
  rw [below]
  dsimp only
  rw [hpow] at hfirst hsecond ⊢
  generalize b.next32.1.toNat * range = product at hfirst ⊢
  generalize b.next32.2.next32.1.toNat * range = product' at hsecond ⊢
  split
  · dsimp only
    omega
  · dsimp only
    omega

namespace LinearEvaluation

theorem length_drawPairs (rows n : Nat) (s : CoinStream) : (drawPairs rows n s).length = n := by
  induction n generalizing s with
  | zero => rfl
  | succ n ih => simp [drawPairs, ih]

/-- The pairs that are drawn are pairs of different columns. -/
theorem of_mem_drawPairs {rows n : Nat} (hrows : 2 ≤ rows) {s : CoinStream} {p : Nat × Nat}
    (hp : p ∈ drawPairs rows n s) : p.1 < rows ∧ p.2 < rows ∧ p.1 ≠ p.2 := by
  induction n generalizing s with
  | zero => cases hp
  | succ n ih =>
    rw [drawPairs] at hp
    dsimp only at hp
    rcases mem_cons.mp hp with hp | hp
    · have hfirst := s.below_lt (show 0 < rows by omega)
      have hdistance := (s.below rows).2.below_lt (show 0 < rows - 1 by omega)
      generalize (s.below rows).1 = first at hfirst hp
      generalize ((s.below rows).2.below (rows - 1)).1 = distance at hdistance hp
      subst hp
      refine ⟨hfirst, Nat.mod_lt _ (by omega), fun heq => ?_⟩
      dsimp only at heq
      rcases Nat.lt_or_ge (first + (1 + distance)) rows with hlt | hge
      · rw [Nat.mod_eq_of_lt hlt] at heq
        omega
      · rw [Nat.mod_eq_sub_mod hge, Nat.mod_eq_of_lt (by omega)] at heq
        omega
    · exact ih hp

section Digests

variable {α : Type} [ShareRing α] {s : Columns} {n i first second : Nat} {key : α}

/-- The bytes that are hashed for a combination of two rows. -/
def pairInput (i : Nat) (a b : Bool) (row : Row α) : Bytes :=
  Wire.count.encode i ++ Wire.flag.encode a ++ Wire.flag.encode b ++ row.packed

/-- What is hashed tells the key bits, and the packed row. -/
theorem pairInput_inj {a b a' b' : Bool} {row row' : Row α}
    (h : pairInput i a b row = pairInput i a' b' row') :
    a = a' ∧ b = b' ∧ row.packed = row'.packed := by
  have hflag : ∀ c c' : Bool, Wire.flag.encode c = Wire.flag.encode c' → c = c' := by decide
  obtain ⟨hfront, hpacked⟩ := append_inj h (by simp [Wire.flag])
  obtain ⟨hfront, hb⟩ := append_inj hfront (by simp [Wire.flag])
  exact ⟨hflag a a' (append_cancel_left hfront), hflag b b' hb, hpacked⟩

/-- Element `k` of the combination of two columns for the given key bits. -/
def combinedCell (s : Columns) (first second : Nat) (a b : Bool) (k : Nat) : α :=
  if a = b then s.cell α first a k - s.cell α second b k
  else s.cell α first a k + s.cell α second b k

theorem combine_ofFn (s : Columns) (n first second : Nat) (a b : Bool) :
    combine a b (.ofFn n (s.cell α first a)) (.ofFn n (s.cell α second b))
      = .ofFn n (combinedCell s first second a b) := by
  rw [combine]
  by_cases hab : a = b
  · rw [if_pos hab, Row.minus_ofFn]
    exact Row.ofFn_congr fun k _ => (if_pos hab).symm
  · rw [if_neg hab, Row.plus_ofFn]
    exact Row.ofFn_congr fun k _ => (if_neg hab).symm

/-- The digests of a pair of columns. -/
theorem digests_rowsOf (hfirst : first < bits α) (hsecond : second < bits α) (i : Nat) :
    InputHolder.digests (rowsOf α s n) i first second
      = .ofFn fun a b => pairDigest i a b (.ofFn n (combinedCell (α := α) s first second a b)) := by
  have hrow : ∀ j < bits α, ∀ c : Bool,
      (((rowsOf α s n)[j]?).map fun r => if c then r.2 else r.1).getD ⟨[]⟩
        = .ofFn n (s.cell α j c) := by
    intro j hj c
    cases c with
    | false => simp [rowsOf, hj]
    | true => simp [rowsOf, hj]
  simp only [InputHolder.digests, hrow first hfirst, hrow second hsecond, combine_ofFn]

theorem PairDigests.get_ofFn (f : Bool → Bool → Bytes) (a b : Bool) : (ofFn f).get a b = f a b := by
  cases a <;> cases b <;> rfl

variable [LawfulShareRing α] {x : Nat → α} {d : Nat → Nat → α}

/-- Element `k` of what the key holder infers for the complements of its bits, if the
corrections have errors. -/
def inferredCell (key : α) (s : Columns) (d : Nat → Nat → α) (first second k : Nat) : α :=
  combinedCell s first second (!bit key first) (!bit key second) k
    + if bit key first then d first k - d second k else d second k - d first k

/-- **What the key holder infers** from corrections with errors. -/
theorem inferred_eq (key : α) (s : Columns) (x : Nat → α) (d : Nat → Nat → α) (n first second : Nat) :
    let known := combine (bit key first) (bit key second) (.ofFn n (s.cell α first (bit key first)))
      (.ofFn n (s.cell α second (bit key second)))
    let u j := Row.ofFn n (faulty s x d j)
    (if bit key first = true then (known.sub (u second)).add (u first)
      else (known.add (u second)).sub (u first)) = .ofFn n (inferredCell key s d first second) := by
  dsimp only
  rw [combine_ofFn]
  unfold inferredCell
  cases bit key first with
  | false =>
    simp only [Bool.false_eq_true, if_false, Row.add_ofFn, Row.sub_ofFn]
    refine Row.ofFn_congr fun k _ => ?_
    cases bit key second <;> simp only [combinedCell, faulty, correction, reduceIte,
      Bool.not_false, Bool.not_true, Bool.false_eq_true, Bool.true_eq_false] <;> ring
  | true =>
    simp only [if_true, Row.add_ofFn, Row.sub_ofFn]
    refine Row.ofFn_congr fun k _ => ?_
    cases bit key second <;> simp only [combinedCell, faulty, correction, reduceIte,
      Bool.not_false, Bool.not_true, Bool.false_eq_true, Bool.true_eq_false] <;> ring

/-- The digest for the key holder's own bits is always right, so a pair is accepted if its
digests are distinct and the inferred one is right. -/
theorem verifyPair_eq (hfirst : first < bits α) (hsecond : second < bits α) (i : Nat) :
    KeyHolder.verifyPair key (chosenRows key s n) (rowsFor n (faulty s x d)) i first second
        (InputHolder.digests (rowsOf α s n) i first second)
      = ((InputHolder.digests (rowsOf α s n) i first second).distinct
        && pairDigest i (!bit key first) (!bit key second) (.ofFn n (inferredCell key s d first second))
          == pairDigest i (!bit key first) (!bit key second)
            (.ofFn n (combinedCell s first second (!bit key first) (!bit key second)) : Row α)) := by
  have hrow : ∀ j < bits α, ((chosenRows key s n)[j]?).getD ⟨[]⟩
      = Row.ofFn n (s.cell α j (bit key j)) := by
    intro j hj
    simp [chosenRows, hj]
  have hu : ∀ j < bits α, ((rowsFor n (faulty s x d))[j]?).getD ⟨[]⟩
      = Row.ofFn n (faulty s x d j) := by
    intro j hj
    simp [rowsFor, hj]
  have hinferred := inferred_eq key s x d n first second
  dsimp only at hinferred
  simp only [KeyHolder.verifyPair, hrow first hfirst, hrow second hsecond, hu first hfirst,
    hu second hsecond, hinferred]
  rw [digests_rowsOf hfirst hsecond]
  simp only [combine_ofFn, PairDigests.get_ofFn, beq_self_eq_true, Bool.and_true]

/-- What both ends hash for a pair: the four combinations, and what the key holder infers. -/
def hashedInputs (key : α) (s : Columns) (d : Nat → Nat → α) (n i first second : Nat) : Set Bytes :=
  {bs | (∃ a b, bs = pairInput i a b (.ofFn n (combinedCell (α := α) s first second a b))) ∨
    bs = pairInput i (!bit key first) (!bit key second) (.ofFn n (inferredCell key s d first second))}

omit [LawfulShareRing α] in
/-- The digests of a pair are distinct if the hash tells its inputs apart. -/
theorem distinct_of_injOn (hfirst : first < bits α) (hsecond : second < bits α)
    (hinj : Set.InjOn (Digest.hashFor checkKey) (hashedInputs key s d n i first second)) :
    (InputHolder.digests (rowsOf α s n) i first second).distinct = true := by
  have hne : ∀ a b a' b', (a, b) ≠ (a', b') →
      pairDigest i a b (.ofFn n (combinedCell (α := α) s first second a b))
        ≠ pairDigest i a' b' (.ofFn n (combinedCell (α := α) s first second a' b')) := by
    intro a b a' b' hab heq
    obtain ⟨ha, hb, -⟩ := pairInput_inj (hinj (.inl ⟨a, b, rfl⟩) (.inl ⟨a', b', rfl⟩) heq)
    exact hab (by rw [ha, hb])
  rw [digests_rowsOf hfirst hsecond]
  refine decide_eq_true ?_
  simp only [PairDigests.ofFn, nodup_cons, mem_cons, not_mem_nil, or_false, not_or,
    not_false_eq_true, nodup_nil, and_true]
  exact ⟨⟨hne _ _ _ _ (by decide), hne _ _ _ _ (by decide), hne _ _ _ _ (by decide)⟩,
    ⟨hne _ _ _ _ (by decide), hne _ _ _ _ (by decide)⟩, hne _ _ _ _ (by decide)⟩

/-- Without a difference of errors the inferred row is right, and only then. -/
theorem inferredCell_eq_iff (key : α) (s : Columns) (d : Nat → Nat → α) (first second k : Nat) :
    inferredCell key s d first second k
        = combinedCell s first second (!bit key first) (!bit key second) k
      ↔ d first k = d second k := by
  rw [inferredCell, add_eq_left]
  split
  · exact sub_eq_zero
  · rw [sub_eq_zero, eq_comm]

/-- **A pair is accepted if and only if its errors are equal.** -/
theorem verifyPair_iff (hfirst : first < bits α) (hsecond : second < bits α)
    (hinj : Set.InjOn (Digest.hashFor checkKey) (hashedInputs key s d n i first second)) :
    KeyHolder.verifyPair key (chosenRows key s n) (rowsFor n (faulty s x d)) i first second
        (InputHolder.digests (rowsOf α s n) i first second) = true
      ↔ ∀ k < n, d first k = d second k := by
  rw [verifyPair_eq hfirst hsecond, distinct_of_injOn hfirst hsecond hinj, Bool.true_and, beq_iff_eq]
  constructor
  · intro heq k hk
    obtain ⟨-, -, hpacked⟩ := pairInput_inj (hinj (.inr rfl) (.inl ⟨_, _, rfl⟩) heq)
    have hrows := Row.packed_injective (by simp) hpacked
    exact (inferredCell_eq_iff key s d first second k).mp (Row.ofFn_inj.mp hrows k hk)
  · intro hd
    rw [Row.ofFn_congr fun k hk => (inferredCell_eq_iff key s d first second k).mpr (hd k hk)]

end Digests

section Verdict

variable {α : Type} [ShareRing α]

/-- Whether the key holder accepts all pairs that are compared. -/
def accepts (key : α) (rows : List (Row α × Row α)) (chosen u : List (Row α))
    (pairs : List (Nat × Nat)) : Bool :=
  pairs.zipIdx.all fun p =>
    KeyHolder.verifyPair key chosen u p.2 p.1.1 p.1.2 (InputHolder.digests rows p.2 p.1.1 p.1.2)

theorem accepts_iff {key : α} {rows : List (Row α × Row α)} {chosen u : List (Row α)}
    {pairs : List (Nat × Nat)} :
    accepts key rows chosen u pairs = true ↔ ∀ i p, pairs[i]? = some p →
      KeyHolder.verifyPair key chosen u i p.1 p.2 (InputHolder.digests rows i p.1 p.2) = true := by
  rw [accepts, all_eq_true]
  constructor
  · intro h i p hp
    exact h (p, i) (mk_mem_zipIdx_iff_getElem?.mpr hp)
  · rintro h ⟨p, i⟩ hp
    exact h i p (mk_mem_zipIdx_iff_getElem?.mp hp)

/-- The pairs with their digests, as the key holder goes through them. -/
theorem all_zip_digests (key : α) (rows : List (Row α × Row α)) (chosen u : List (Row α))
    (pairs : List (Nat × Nat)) :
    ((pairs.zip (pairs.zipIdx.map fun p => InputHolder.digests rows p.2 p.1.1 p.1.2)).zipIdx.all
      fun q => KeyHolder.verifyPair key chosen u q.2 q.1.1.1 q.1.1.2 q.1.2)
      = accepts key rows chosen u pairs := by
  have hzip : (pairs.zip (pairs.zipIdx.map fun p => InputHolder.digests rows p.2 p.1.1 p.1.2)).zipIdx
      = pairs.zipIdx.map fun p => ((p.1, InputHolder.digests rows p.2 p.1.1 p.1.2), p.2) := by
    refine ext_getElem (by simp) fun i hi _ => ?_
    simp
  rw [hzip, all_map]
  rfl

end Verdict

end LinearEvaluation

end Beaver
