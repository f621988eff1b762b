import Mathlib
import Beaver.Proofs.LinearEvaluation.Sessions

/-!
# What the consistency check finds

Let errors be added to the rows that the input holder sends.  The key holder accepts a
pair of columns if and only if their errors are equal, as far as the hash tells its inputs
apart, and its share changes by the errors that the bits of the key select.  If the pairs
that are compared connect all columns, then all errors are one and the same row, and
the shares are those of inputs with that row added (`tampered_rows`).
-/

namespace Beaver.LinearEvaluation

open List hiding sum
open ShareRing

/-- The message with errors added to the rows in it. -/
def addErrors {α : Type} [ShareRing α] (error : Nat → Row α) (message : Bytes) : Bytes :=
  match (Row.wire α).list.read message with
  | .error _ => message
  | .ok u => (Row.wire α).list.encode (u.zipIdx.map fun q => q.1.add (error q.2))

/-- Adds errors to the first message from party 0 to party 1. -/
def tampering {α : Type} [ShareRing α] (error : Nat → Row α) (source target k : Nat)
    (message : Bytes) : Bytes :=
  if source = 0 ∧ target = 1 ∧ k = 0 then addErrors error message else message

section Errors

variable {α : Type} [ShareRing α] {n : Nat} {error : Nat → Row α}

/-- The element of a row of errors. -/
def errorAt (error : Nat → Row α) (j k : Nat) : α := (error j).entry k

theorem add_error (herror : ∀ j, (error j).values.length = n) (u : Nat → Nat → α) :
    ((rowsFor n u).zipIdx.map fun q => q.1.add (error q.2))
      = rowsFor n fun j k => u j k + errorAt error j k := by
  have hrow : ∀ j, (Row.ofFn n (u j)).add (error j) = .ofFn n fun k => u j k + errorAt error j k := by
    intro j
    have hadd := Row.add_ofFn n (u j) (error j).entry
    rwa [Row.ofFn_entry (herror j)] at hadd
  refine ext_getElem (by simp [rowsFor]) fun j hj _ => ?_
  simp [rowsFor, hrow]

/-- Errors are equal if their elements are. -/
theorem error_eq_iff (herror : ∀ j, (error j).values.length = n) (first second : Nat) :
    error first = error second ↔ ∀ k < n, errorAt error first k = errorAt error second k := by
  rw [← Row.ofFn_inj]
  unfold errorAt
  rw [Row.ofFn_entry (herror first), Row.ofFn_entry (herror second)]

omit [ShareRing α] in
/-- Connected columns have equal errors. -/
theorem error_eq_of_connected {pairs : List (Nat × Nat)} (h : ∀ p ∈ pairs, error p.1 = error p.2)
    {first second : Nat} (hpath : Relation.EqvGen (fun a b => (a, b) ∈ pairs) first second) :
    error first = error second := by
  induction hpath with
  | rel a b hab => exact h (a, b) hab
  | refl a => rfl
  | symm a b _ ih => exact ih.symm
  | trans a b c _ _ ih ih' => exact ih.trans ih'

variable [LawfulShareRing α]

theorem addErrors_encode (hbits : bits α < 2 ^ 64) (hn : n < 2 ^ 64)
    (herror : ∀ j, (error j).values.length = n) (s : Columns) (x : Nat → α) :
    addErrors error ((Row.wire α).list.encode (rowsFor n (correction s x)))
      = (Row.wire α).list.encode (rowsFor n (faulty s x (errorAt error))) := by
  rw [addErrors, (carries_rowsFor hbits hn _).read_encode]
  dsimp only
  rw [add_error herror]
  rfl

/-- One error in all columns is the key times that error. -/
theorem selectedError_const (key : α) {d : Nat → Nat → α} {e : Nat → α} {k : Nat}
    (h : ∀ j < bits α, d j k = e k) : selectedError key d k = key * e k := by
  have hkey : total (bits α) (fun j => scale (basis j) (bit key j)) = key :=
    LawfulShareRing.sum_bits key
  calc selectedError key d k
      = total (bits α) fun j => scale (basis j) (bit key j) * e k := by
        rw [selectedError, total, total]
        exact congrArg sum (map_congr_left fun j hj => by rw [h j (mem_range.mp hj)])
    _ = key * e k := by rw [total_mul_right, hkey]

/-- The key holder's share changes by the selected errors. -/
theorem share_faulty (key : α) (s : Columns) (x : Nat → α) (d : Nat → Nat → α) (k : Nat) :
    KeyHolder.share key s (faulty s x d) k
      = KeyHolder.share key s (correction s x) k + selectedError key d k := by
  have hfaulty := shares_add key s x d k
  have hhonest := shares_add key s x (fun _ _ => 0) k
  have hnone : selectedError key (fun _ _ => 0) k = 0 := by
    simp only [selectedError, mul_zero, total_zero]
  rw [faulty_zero, hnone, add_zero] at hhonest
  rw [← hhonest, add_assoc] at hfaulty
  exact add_left_cancel hfaulty

end Errors

section Run

variable {r : RingName} {l l' : LinkEnd} {passive : Bool} {n : Nat} {error : Nat → Row r.Carrier}

/-- **An evaluation whose rows are changed on their way.** -/
theorem meets_tampered (hl : LinkEnd.Joined 0 1 l l')
    (hbits : passive = false → 2 ≤ bits r.Carrier) (key : r.Carrier) (s : Columns)
    {inputs : List r.Carrier} (hroom : inputs.length * bytes r.Carrier < memoryLimit)
    (herror : ∀ j, (error j).values.length = inputs.length) (t v : Tape) :
    Meets 0 1 (fun a b _ _ =>
        a = (.ok ((range inputs.length).map (InputHolder.share s)),
          InputHolder.ofColumns r.Carrier passive (s.advance inputs.length)) ∧
        b = (outcome (passive || accepts key (rowsOf r.Carrier s inputs.length)
            (chosenRows key s inputs.length)
            (rowsFor inputs.length (faulty s (Row.entry ⟨inputs⟩) (errorAt error)))
            (tossedPairs (bits r.Carrier) (t.next 32) (v.next 32)))
          ((range inputs.length).map
            (KeyHolder.share key s (faulty s (Row.entry ⟨inputs⟩) (errorAt error)))),
          KeyHolder.ofColumns passive key (s.advance inputs.length)))
      (((InputHolder.evaluate l inputs).start (InputHolder.ofColumns r.Carrier passive s)).altered
        (tampering error 0) fun _ => 0)
      (((KeyHolder.evaluate l' inputs.length).start (KeyHolder.ofColumns passive key s)).altered
        (tampering error 1) fun _ => 0) [] [] t v := by
  have hn := RingName.lt_of_room hroom
  obtain ⟨next, hwaits, hgoes⟩ := KeyHolder.start_evaluate l' hroom hn r.bits_lt passive key s
  rw [Protocol.altered_other (tampering error) fun _ _ _ _ => rfl, InputHolder.start_evaluate,
    hwaits, hl.address, hl.address',
    Protocol.altered_send (tampering error) fun _ _ _ _ => rfl]
  refine .sendLeft (.recvRight ?_)
  simp only [addErrors_encode r.bits_lt hn herror, hgoes]
  exact meets_conclude hl hbits key _ _ _ _ _ _ t v

/-- The pairs that are compared have equal errors. -/
def Agree {α : Type} (error : Nat → Row α) (pairs : List (Nat × Nat)) : Prop :=
  ∀ p ∈ pairs, error p.1 = error p.2

/-- **The check accepts if and only if the compared errors agree.** -/
theorem accepts_iff_agree (hbits : 2 ≤ bits r.Carrier) {key : r.Carrier} {s : Columns}
    {x : Nat → r.Carrier} (herror : ∀ j, (error j).values.length = n) {seed seed' : Bytes}
    (hinj : ∀ (i : Nat) p, (tossedPairs (bits r.Carrier) seed seed')[i]? = some p →
      Set.InjOn (Digest.hashFor checkKey) (hashedInputs key s (errorAt error) n i p.1 p.2)) :
    accepts key (rowsOf r.Carrier s n) (chosenRows key s n) (rowsFor n (faulty s x (errorAt error)))
        (tossedPairs (bits r.Carrier) seed seed') = true
      ↔ Agree error (tossedPairs (bits r.Carrier) seed seed') := by
  have hpair : ∀ (i : Nat) p, (tossedPairs (bits r.Carrier) seed seed')[i]? = some p →
      (KeyHolder.verifyPair key (chosenRows key s n) (rowsFor n (faulty s x (errorAt error))) i p.1
        p.2 (InputHolder.digests (rowsOf r.Carrier s n) i p.1 p.2) = true ↔ error p.1 = error p.2) := by
    intro i p hp
    obtain ⟨hfirst, hsecond, -⟩ := of_mem_drawPairs hbits (mem_of_getElem? hp)
    rw [verifyPair_iff hfirst hsecond (hinj i p hp), error_eq_iff herror]
  rw [accepts_iff]
  constructor
  · intro h p hp
    obtain ⟨i, hi⟩ := mem_iff_getElem?.mp hp
    exact (hpair i p hi).mp (h i p hi)
  · intro h i p hp
    exact (hpair i p hp).mpr (h p (mem_of_getElem? hp))

/-- With one error in all columns, the shares are those of inputs with that error. -/
theorem addUp_faulty (key : r.Carrier) (s : Columns) (inputs : List r.Carrier) {e : Row r.Carrier}
    (he : e.values.length = inputs.length) (herror : ∀ j < bits r.Carrier, error j = e) :
    AddUp ((range inputs.length).map (InputHolder.share s))
      ((range inputs.length).map
        (KeyHolder.share key s (faulty s (Row.entry ⟨inputs⟩) (errorAt error))))
      ((zipWith (· + ·) inputs e.values).map (key * ·)) := by
  have hsum : ∀ k < inputs.length, InputHolder.share s k
      + KeyHolder.share key s (faulty s (Row.entry ⟨inputs⟩) (errorAt error)) k
      = key * (Row.entry ⟨inputs⟩ k + e.entry k) := by
    intro k _
    have hconst : selectedError key (errorAt error) k = key * e.entry k :=
      selectedError_const key fun j hj => by rw [errorAt, herror j hj]
    rw [shares_add, hconst, mul_add]
  have hwhole : zipWith (· + ·) inputs e.values
      = (range inputs.length).map fun k => Row.entry ⟨inputs⟩ k + e.entry k := by
    have hadd := Row.plus_ofFn inputs.length (Row.entry ⟨inputs⟩) e.entry
    rw [Row.ofFn_entry rfl, Row.ofFn_entry he] at hadd
    exact congrArg Row.values hadd
  rw [hwhole, map_map]
  exact .of_fn hsum

theorem InputHolder.mk_eq_ofColumns {streams : List (Keystream × Keystream)}
    (h : streams.length = bits r.Carrier) (passive : Bool) :
    (⟨passive, streams⟩ : InputHolder) = ofColumns r.Carrier passive (.ofList streams) := by
  rw [ofColumns, Columns.map_range_ofList h]

theorem KeyHolder.mk_eq_ofColumns {streams : List (Keystream × Keystream)}
    (h : streams.length = bits r.Carrier) (passive : Bool) (key : r.Carrier) :
    (⟨passive, key, Transfer.chosenKeys streams (Multiplier.elementBits key)⟩ : KeyHolder r.Carrier)
      = ofColumns passive key (.ofList streams) := by
  rw [ofColumns, Multiplier.elementBits, Columns.chosenKeys_eq h]

/-- The rows that the input holder sends, with errors. -/
theorem sent_rows (s : Columns) (inputs : List r.Carrier)
    (herror : ∀ j, (error j).values.length = inputs.length) :
    ((rowsOf r.Carrier s inputs.length).zipIdx.map fun q =>
        ((q.1.1.minus q.1.2).add ⟨inputs⟩).add (error q.2))
      = rowsFor inputs.length (faulty s (Row.entry ⟨inputs⟩) (errorAt error)) := by
  refine ext_getElem (by simp [rowsOf, rowsFor]) fun j _ _ => ?_
  have hadd := Row.add_ofFn inputs.length (correction s (Row.entry ⟨inputs⟩) j) (error j).entry
  rw [Row.ofFn_entry (herror j), ← correction_row] at hadd
  simp only [rowsOf, rowsFor, getElem_map, getElem_zipIdx, getElem_range,
    Nat.zero_add, hadd]
  rfl

/-- **What the consistency check finds.**  Between two ends with the streams of the same
transfers, let errors be added to the rows that the input holder sends, and let the hash
tell apart what is hashed for the tossed pairs.  A pair is accepted exactly if its errors
are equal; the key holder returns a share exactly if this is so for all tossed pairs, and
reports cheating otherwise.  The share is the honest one plus the errors that the bits of
the key select.  If the tossed pairs connect all columns, then the shares of an accepted
evaluation are those of inputs with one error added. -/
theorem tampered_rows (streams : List (Keystream × Keystream))
    (hstreams : streams.length = bits r.Carrier) (key : r.Carrier) (passive : Bool)
    (hl : LinkEnd.Joined 0 1 l l') {inputs : List r.Carrier}
    (hroom : inputs.length * bytes r.Carrier < memoryLimit)
    (herror : ∀ j, (error j).values.length = inputs.length) (c d : Coins)
    (hactive : passive = false → 2 ≤ bits r.Carrier ∧ ∀ (i : Nat) p,
      (tossedPairs (bits r.Carrier) (c.draws c.used 32) (d.draws d.used 32))[i]? = some p →
      Set.InjOn (Digest.hashFor checkKey)
        (hashedInputs key (.ofList streams) (errorAt error) inputs.length i p.1 p.2)) :
    let h : InputHolder := ⟨passive, streams⟩
    let k : KeyHolder r.Carrier :=
      ⟨passive, key, Transfer.chosenKeys streams (Multiplier.elementBits key)⟩
    let pairs := tossedPairs (bits r.Carrier) (c.draws c.used 32) (d.draws d.used 32)
    ∃ rows chosen h' k' mine honest theirs result net₀ net,
      (InputHolder.expandRows inputs.length).start h = .done (.ok rows, h') ∧
      (KeyHolder.expandRows inputs.length).start k = .done (.ok chosen, k') ∧
      (∀ i first second, first < bits r.Carrier → second < bits r.Carrier →
        Set.InjOn (Digest.hashFor checkKey)
          (hashedInputs key (.ofList streams) (errorAt error) inputs.length i first second) →
        (KeyHolder.verifyPair key chosen
            (rows.zipIdx.map fun q => ((q.1.1.minus q.1.2).add ⟨inputs⟩).add (error q.2)) i first second
            (InputHolder.digests rows i first second) = true ↔ error first = error second)) ∧
      (Network.ofCoins [c, d]).runPair .honest
          ((InputHolder.evaluate l inputs).start h) ((KeyHolder.evaluate l' inputs.length).start k)
        = (some (.ok mine, h'), some (.ok honest, k'), net₀) ∧
      AddUp mine honest (inputs.map (key * ·)) ∧
      (Network.ofCoins [c, d]).runPair (.altering (tampering error))
          ((InputHolder.evaluate l inputs).start h) ((KeyHolder.evaluate l' inputs.length).start k)
        = (some (.ok mine, h'), some (result, k'), net) ∧
      (passive = true ∨ Agree error pairs → result = .ok theirs) ∧
      (passive = false → ¬ Agree error pairs → result = .error (.error (.cheat .consistency))) ∧
      theirs = zipWith (· + ·) honest
        ((range inputs.length).map (selectedError key (errorAt error))) ∧
      (Agree error pairs →
        (∀ j < bits r.Carrier, Relation.EqvGen (fun a b => (a, b) ∈ pairs) 0 j) →
        ∃ e : Row r.Carrier, e.values.length = inputs.length ∧
          AddUp mine theirs ((zipWith (· + ·) inputs e.values).map (key * ·))) := by
  intro h k pairs
  have hh : h = .ofColumns r.Carrier passive (.ofList streams) :=
    InputHolder.mk_eq_ofColumns hstreams passive
  have hk : k = .ofColumns passive key (.ofList streams) :=
    KeyHolder.mk_eq_ofColumns hstreams passive key
  rw [hh, hk]
  generalize Columns.ofList streams = s at hactive ⊢
  have hdistinct : passive = false → 2 ≤ bits r.Carrier ∧ ∀ (m : Nat) p, pairs[m]? = some p →
      (InputHolder.digests (rowsOf r.Carrier s inputs.length) m p.1 p.2).distinct = true := by
    intro hpassive
    obtain ⟨hbits, hinj⟩ := hactive hpassive
    refine ⟨hbits, fun m p hp => ?_⟩
    obtain ⟨hfirst, hsecond, -⟩ := of_mem_drawPairs hbits (mem_of_getElem? hp)
    exact distinct_of_injOn hfirst hsecond (hinj m p hp)
  obtain ⟨_, _, _, _, net₀, ⟨rfl, rfl⟩, hhonest⟩ := Network.runPair_honest
    (meets_evaluate hl key s hroom (t := c.tape) (v := d.tape) hdistinct)
  obtain ⟨_, _, _, _, net, ⟨rfl, rfl⟩, htampered⟩ := Network.runPair_of_meets
    (meets_tampered hl (fun hp => (hactive hp).1) key s hroom herror c.tape d.tape)
  refine ⟨_, _, _, _, _, _, (range inputs.length).map
      (KeyHolder.share key s (faulty s (Row.entry ⟨inputs⟩) (errorAt error))), _, net₀, net,
    InputHolder.start_expandRows passive s _, KeyHolder.start_expandRows hroom passive key s, ?_,
    hhonest, addUp_shares key s inputs, htampered, ?_, ?_, ?_, ?_⟩
  · intro i first second hfirst hsecond hinj
    rw [sent_rows s inputs herror, verifyPair_iff hfirst hsecond hinj, error_eq_iff herror]
  · intro haccept
    have haccepted : (passive || accepts key (rowsOf r.Carrier s inputs.length)
        (chosenRows key s inputs.length)
        (rowsFor inputs.length (faulty s (Row.entry ⟨inputs⟩) (errorAt error))) pairs) = true := by
      cases passive with
      | true => rfl
      | false =>
        obtain ⟨hbits, hinj⟩ := hactive rfl
        exact (accepts_iff_agree hbits herror hinj).mpr (haccept.resolve_left (by simp))
    exact if_pos haccepted
  · rintro rfl hdisagree
    obtain ⟨hbits, hinj⟩ := hactive rfl
    refine if_neg fun haccepted => hdisagree ?_
    exact (accepts_iff_agree hbits herror hinj).mp haccepted
  · refine ext_getElem (by simp) fun m hm _ => ?_
    simp only [getElem_map, getElem_range, getElem_zipWith]
    exact share_faulty key s _ _ m
  · intro hagree hconnected
    exact ⟨error 0, herror 0, addUp_faulty key s inputs (herror 0) fun j hj =>
      (error_eq_of_connected hagree (hconnected j hj)).symm⟩

end Run

section Sample

/-- An error in column 0 only. -/
def oneError (j : Nat) : Row Gf128 := ⟨[if j = 0 then 1 else 0]⟩

/-- The key whose bits are all set. -/
def fullKey : Gf128 := ⟨Block.ofNat (2 ^ 128 - 1)⟩

/-- What is hashed for a pair of zeros. -/
def zeroInputs (i : Nat) : List Bytes :=
  [pairInput i false false (⟨[0]⟩ : Row Gf128), pairInput i false true (⟨[0]⟩ : Row Gf128),
    pairInput i true false (⟨[0]⟩ : Row Gf128), pairInput i true true (⟨[0]⟩ : Row Gf128)]

theorem hashedInputs_oneError (z : Keystream) {i first second : Nat} (hfirst : first < 128)
    (hsecond : second < 128) {bs : Bytes}
    (h : bs ∈ hashedInputs fullKey (fun _ _ => z) (errorAt oneError) 1 i first second) :
    bs ∈ zeroInputs i ∨
      bs = pairInput i false false ⟨[errorAt oneError first 0 - errorAt oneError second 0]⟩ := by
  have hbit : ∀ j < 128, bit fullKey j = true := by decide +kernel
  rcases h with ⟨a, b, rfl⟩ | rfl
  · have hrow : Row.ofFn 1 (combinedCell (α := Gf128) (fun _ _ => z) first second a b) = ⟨[0]⟩ :=
      Row.ofFn_congr fun k _ => combinedCell_same z first second a b k
    rw [hrow]
    left
    cases a <;> cases b <;> simp [zeroInputs]
  · have hrow : Row.ofFn 1 (inferredCell fullKey (fun _ _ => z) (errorAt oneError) first second)
        = ⟨[errorAt oneError first 0 - errorAt oneError second 0]⟩ := by
      refine Row.ofFn_congr (g := fun _ => _) fun k hk => ?_
      obtain rfl : k = 0 := by omega
      rw [inferredCell, combinedCell_same, zero_add, hbit first hfirst, if_pos rfl]
    rw [hrow, hbit first hfirst, hbit second hsecond]
    exact .inr rfl

/-- The pairs that two ends with zero coins compare. -/
def zeroPairs : List (Nat × Nat) := tossedPairs 128 (replicate 32 0) (replicate 32 0)

/-- One of them has column 0. -/
theorem mem_zeroPairs : ∀ p ∈ zeroPairs.zipIdx,
    (p.2 < 128 ∧ p.1.1 < 128 ∧ p.1.2 < 128) ∧ (p.1.1 ≠ 0 ∧ p.1.2 ≠ 0 ∨ p = ((0, 110), 110)) := by
  decide +kernel

theorem injOn_oneError (z : Keystream) {i : Nat} {p : Nat × Nat}
    (hp : zeroPairs[i]? = some p) :
    Set.InjOn (Digest.hashFor checkKey)
      (hashedInputs fullKey (fun _ _ => z) (errorAt oneError) 1 i p.1 p.2) := by
  obtain ⟨⟨hi, hfirst, hsecond⟩, hcolumns⟩ :=
    mem_zeroPairs (p, i) (mk_mem_zipIdx_iff_getElem?.mpr hp)
  have hzeros : ((zeroInputs i).map (Digest.hashFor checkKey)).Nodup :=
    of_decide_eq_true (distinct_zero i hi)
  rcases hcolumns with ⟨hne, hne'⟩ | heq
  · -- both errors are zero, so nothing but the four combinations is hashed
    have hmem : ∀ bs ∈ hashedInputs fullKey (fun _ _ => z) (errorAt oneError) 1 i p.1 p.2,
        bs ∈ zeroInputs i := by
      intro bs hbs
      rcases hashedInputs_oneError z hfirst hsecond hbs with h | rfl
      · exact h
      · have hzero : ∀ j, j ≠ 0 → errorAt oneError j 0 = 0 := fun j hj => if_neg hj
        rw [hzero _ hne, hzero _ hne', sub_zero]
        exact mem_cons_self
    intro bs hbs bs' hbs' heq
    exact inj_on_of_nodup_map hzeros (hmem bs hbs) (hmem bs' hbs') heq
  · obtain ⟨rfl, rfl⟩ := Prod.mk.inj heq
    have hfive : ((zeroInputs 110 ++ [pairInput 110 false false (⟨[1]⟩ : Row Gf128)]).map
        (Digest.hashFor checkKey)).Nodup := by decide +kernel
    have hmem : ∀ bs ∈ hashedInputs fullKey (fun _ _ => z) (errorAt oneError) 1 110 0 110,
        bs ∈ zeroInputs 110 ++ [pairInput 110 false false (⟨[1]⟩ : Row Gf128)] := by
      intro bs hbs
      rcases hashedInputs_oneError z hfirst hsecond hbs with h | rfl
      · exact mem_append_left _ h
      · exact mem_append_right _ mem_cons_self
    intro bs hbs bs' hbs' heq
    exact inj_on_of_nodup_map hfive (hmem bs hbs) (hmem bs' hbs') heq

/-- An error in one column is found by the one pair that has this column. -/
theorem tampered_rows_found :
    let streams := Transfer.pairStreams (replicate 128 (.zero, .zero))
    let h : InputHolder := ⟨false, streams⟩
    let k : KeyHolder Gf128 :=
      ⟨false, fullKey, Transfer.chosenKeys streams (Multiplier.elementBits fullKey)⟩
    ∃ mine h' k' net, (Network.ofCoins [.zeros, .zeros]).runPair (.altering (tampering oneError))
        ((InputHolder.evaluate ⟨1, 0, 1⟩ [fullKey]).start h)
        ((KeyHolder.evaluate ⟨0, 1, 0⟩ 1).start k)
      = (some (.ok mine, h'), some (.error (.error (.cheat .consistency)), k'), net) := by
  intro streams h k
  have hstreams : streams.length = bits Gf128 := by
    simp only [streams, Transfer.pairStreams, length_map, length_replicate]
    rfl
  have hbits : 2 ≤ bits Gf128 := by decide
  have hroom : [fullKey].length * bytes Gf128 < memoryLimit := by decide
  have hlength : ∀ j, (oneError j).values.length = 1 := fun _ => rfl
  have hinj : ∀ (i : Nat) p, zeroPairs[i]? = some p →
      Set.InjOn (Digest.hashFor checkKey)
        (hashedInputs fullKey (.ofList streams) (errorAt oneError) 1 i p.1 p.2) := by
    intro i p hp
    rw [Columns.ofList_replicate]
    exact injOn_oneError _ hp
  have hdisagree : ¬ Agree oneError zeroPairs := by
    intro hagree
    have hfound : (0, 110) ∈ zeroPairs := by decide +kernel
    have heq : (1 : Gf128) = 0 := by simpa [oneError] using hagree _ hfound
    exact absurd heq (by decide)
  obtain ⟨-, -, h', k', mine, -, -, result, -, net, -, -, -, -, -, hrun, -, hreject, -⟩ :=
    @tampered_rows .gf128 _ _ oneError streams hstreams fullKey false
      (LinkEnd.joined_mk Nat.zero_ne_one) [fullKey] hroom hlength .zeros .zeros fun _ => ⟨hbits, hinj⟩
  rw [hreject rfl hdisagree] at hrun
  exact ⟨mine, h', k', net, hrun⟩

end Sample

end Beaver.LinearEvaluation
