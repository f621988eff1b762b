import Beaver.Proofs.Faults.Transfers
import Beaver.Proofs.LinearEvaluation.Sessions

/-!
# Linear evaluation with guards

Both holders once more, with every element computed in words and every row, key bit and
pair of columns looked up by its index.  Whatever arrives, an evaluation of a vector that
memory has room for comes to shares or to an error (`InputHolder.guards_evaluate`,
`KeyHolder.guards_evaluate`).
-/

namespace Beaver

open List
open ShareRing
open Session (Guards Leaves)

theorem RingName.bits_le (r : RingName) : bits r.Carrier ≤ 128 := by
  cases r <;> decide

/-- Random elements, if memory has room for them and the stream has their blocks. -/
def Row.draw? {α : Type} [ShareRing α] (n : Nat) (s : Keystream) : Option (Row α × Keystream) := do
  let n ← room? n (bytes α)
  let drawn ← s.blocks? n
  some (⟨drawn.1.map ofBlock⟩, drawn.2)

variable {α : Type}

theorem Row.draw?_eq [ShareRing α] {n : Nat} {s : Keystream} (hroom : n * bytes α < memoryLimit)
    (h : s.generator.counter + n < 2 ^ 128) :
    (draw? n s : Option (Row α × Keystream)) = some (random n s) := by
  rw [draw?, room?, if_pos hroom]
  simp only [Option.bind_eq_bind, Option.bind_some, Keystream.blocks?_eq n h]
  rfl

theorem Row.zeros?_eq [ShareRing α] {n : Nat} (hroom : n * bytes α < memoryLimit) :
    (zeros? n : Option (Row α)) = some (zeros n) := by
  rw [zeros?, room?, if_pos hroom]
  rfl

namespace LinearEvaluation

/-- Draws pairs of different rows.  Both ranges must not be empty. -/
def drawPairs? (rows : Nat) : Nat → CoinStream → Option (List (Nat × Nat))
  | 0, _ => some []
  | n + 1, s =>
    if 0 < rows ∧ 0 < rows - 1 then do
      let first := s.below rows
      let distance := first.2.below (rows - 1)
      let sum ← inWord? (first.1 + (1 + distance.1))
      let rest ← drawPairs? rows n distance.2
      some ((first.1, sum % rows) :: rest)
    else none

/-- The pairs of rows that are compared, tossed by both ends; one for each row. -/
def Guarded.challengePairs {σ : Type} (l : LinkEnd) (rows : Nat) :
    Session σ (List (Nat × Nat)) := do
  if rows < 2 then Session.fail (.config (.columns rows))
  let coins ← CoinToss.pairwise l
  Session.total (drawPairs? rows rows coins)

theorem drawPairs?_eq {rows n : Nat} (hrows : 2 ≤ rows) (hword : rows ≤ 128) (s : CoinStream) :
    drawPairs? rows n s = some (drawPairs rows n s) := by
  induction n generalizing s with
  | zero => rfl
  | succ n ih =>
    have hfirst := s.below_lt (show 0 < rows by omega)
    have hdistance := (s.below rows).2.below_lt (show 0 < rows - 1 by omega)
    rw [drawPairs?, if_pos (by omega)]
    dsimp only
    rw [inWord?_eq (by omega), ih]
    rfl

/-- The pairs are pairs of rows. -/
theorem guards_challengePairs {σ : Type} {t : σ} {post : List (Nat × Nat) → σ → Prop}
    {inv : σ → Prop} {l : LinkEnd} {rows : Nat} (hword : rows ≤ 128)
    (hpost : ∀ pairs : List (Nat × Nat), (∀ p ∈ pairs, p.1 < rows ∧ p.2 < rows) → post pairs t)
    (herror : inv t) :
    Guards t (Guarded.challengePairs l rows) (challengePairs l rows) post inv := by
  rw [Guarded.challengePairs, challengePairs]
  by_cases hrows : rows < 2
  · rw [if_pos hrows, if_pos hrows]
    exact .bind (.fail herror)
  · rw [if_neg hrows, if_neg hrows]
    refine .bind (CoinToss.guards_pairwise (fun coins => ?_) herror)
    rw [drawPairs?_eq (by omega) hword]
    refine .pure (hpost _ fun p hp => ?_)
    exact ⟨(of_mem_drawPairs (by omega) hp).1, (of_mem_drawPairs (by omega) hp).2.1⟩

section Rows

variable {α : Type} [ShareRing α] [WordRing α]

/-- The combination of two rows for the given key bits. -/
def combine? (a b : Bool) (x y : Row α) : Option (Row α) :=
  if a = b then x.front? WordRing.sub? y else x.front? WordRing.add? y

/-- The digests of pair `i`, of which both rows have to be there. -/
def InputHolder.digests? (rows : List (Row α × Row α)) (i first second : Nat) :
    Option PairDigests := do
  let x ← rows[first]?
  let y ← rows[second]?
  let c00 ← combine? false false x.1 y.1
  let c01 ← combine? false true x.1 y.2
  let c10 ← combine? true false x.2 y.1
  let c11 ← combine? true true x.2 y.2
  some ⟨pairDigest i false false c00, pairDigest i false true c01, pairDigest i true false c10,
    pairDigest i true true c11⟩

/-- The sum of the corrected rows times their powers of two. -/
def KeyHolder.share? (key : α) (n : Nat) (rows u : List (Row α)) : Option (Row α) := do
  let zeros ← Row.zeros? n
  (rows.zip u).zipIdx.foldlM (fun acc p => do
    let b ← WordRing.bit? key p.2
    let corrected ← Row.addIf? b p.1.1 p.1.2
    Row.addMultiple? (← WordRing.weight? p.2) acc corrected) zeros

/-- Whether the digests of pair `i` are right, of which all rows have to be there. -/
def KeyHolder.verifyPair? (key : α) (rows u : List (Row α)) (i first second : Nat)
    (d : PairDigests) : Option Bool := do
  let a ← WordRing.bit? key first
  let b ← WordRing.bit? key second
  let x ← rows[first]?
  let y ← rows[second]?
  let known ← combine? a b x y
  let ux ← u[first]?
  let uy ← u[second]?
  let other ← if a then do (← known.update? WordRing.sub? uy).update? WordRing.add? ux
    else do (← known.update? WordRing.add? uy).update? WordRing.sub? ux
  some (d.distinct && pairDigest i a b known == d.get a b &&
    pairDigest i (!a) (!b) other == d.get (!a) (!b))

variable [LawfulShareRing α]

@[simp]
theorem combine?_eq (a b : Bool) (x y : Row α) : combine? a b x y = some (combine a b x y) := by
  rw [combine?, combine]
  split <;> simp

variable {first second : Nat} {rows u : List (Row α)}

theorem InputHolder.digests?_eq {rows : List (Row α × Row α)} (hfirst : first < rows.length)
    (hsecond : second < rows.length) (i : Nat) :
    digests? rows i first second = some (digests rows i first second) := by
  simp [digests?, digests, PairDigests.ofFn, hfirst, hsecond]

theorem KeyHolder.verifyPair?_eq {key : α} (hrows : rows.length = bits α) (hu : u.length = bits α)
    (hfirst : first < bits α) (hsecond : second < bits α) (i : Nat) (d : PairDigests) :
    verifyPair? key rows u i first second d = some (verifyPair key rows u i first second d) := by
  rw [verifyPair?, WordRing.bit?_eq key hfirst, WordRing.bit?_eq key hsecond,
    getElem?_eq_getElem (hrows ▸ hfirst), getElem?_eq_getElem (hrows ▸ hsecond),
    getElem?_eq_getElem (hu ▸ hfirst), getElem?_eq_getElem (hu ▸ hsecond)]
  simp only [Option.bind_eq_bind, Option.bind_some, combine?_eq, Row.update?_sub, Row.update?_add]
  cases hbit : bit key first with
  | false => simp [verifyPair, hbit, hrows, hu, hfirst, hsecond]
  | true => simp [verifyPair, hbit, hrows, hu, hfirst, hsecond]

/-- The rows that a loop has made, with their indices. -/
theorem zipIdx_map_zipIdx {β γ : Type} (f : β × Nat → γ) (xs : List β) :
    (xs.zipIdx.map f).zipIdx = xs.zipIdx.map fun p => (f p, p.2) := by
  refine ext_getElem (by simp) fun j _ _ => ?_
  simp

theorem KeyHolder.share?_eq {key : α} {n : Nat} (hroom : n * bytes α < memoryLimit)
    (hrows : rows.length = bits α) :
    share? key n rows u = some (powerSum n ((rows.zip u).zipIdx.map fun p =>
      Row.addIf (bit key p.2) p.1.1 p.1.2)) := by
  have hstep : ∀ p ∈ (rows.zip u).zipIdx, ∀ acc : Row α, (do
      let b ← WordRing.bit? key p.2
      let corrected ← Row.addIf? b p.1.1 p.1.2
      Row.addMultiple? (← WordRing.weight? p.2) acc corrected)
        = some (Row.addMultiple (basis p.2) acc (Row.addIf (bit key p.2) p.1.1 p.1.2)) := by
    intro p hp acc
    have hlt := snd_lt_of_mem_zipIdx hp
    rw [length_zip] at hlt
    have hbit : p.2 < bits α := by omega
    rw [WordRing.bit?_eq key hbit, WordRing.weight?_eq hbit]
    simp
  rw [share?, Row.zeros?_eq hroom]
  refine (foldlM_eq_some hstep).trans ?_
  rw [powerSum, zipIdx_map_zipIdx, foldl_map]

end Rows

namespace InputHolder

variable {r : RingName}

namespace Guarded

/-- The next rows of `n` elements from both streams of every key bit. -/
def expandRows {α : Type} [ShareRing α] (n : Nat) : Session InputHolder (List (Row α × Row α)) := do
  let expanded ← Session.total ((← get).streams.mapM fun s => do
    let zero ← Row.draw? n s.1
    let one ← Row.draw? n s.2
    some (zero, one))
  modify ({ · with streams := expanded.map fun p => (p.1.2, p.2.2) })
  pure (expanded.map fun p => (p.1.1, p.2.1))

/-- This party's shares of the key times the inputs. -/
def evaluate {α : Type} [ShareRing α] [WordRing α] (l : LinkEnd) (inputs : List α) :
    Session InputHolder (List α) := do
  let n := inputs.length
  let rows ← expandRows n
  let u ← Session.total (rows.mapM fun row => do
    (← row.1.front? WordRing.sub? row.2).update? WordRing.add? ⟨inputs⟩)
  l.send (Row.wire α).list u
  let zeros ← Session.total (Row.zeros? n)
  let share ← Session.total (rows.zipIdx.foldlM (fun acc p => do
    Row.addMultiple? (← WordRing.neg? (← WordRing.weight? p.2)) acc p.1.1) zeros)
  if (← get).passive then pure share.values
  else
    let pairs ← Guarded.challengePairs l (bits α)
    let hashes ← Session.total (pairs.zipIdx.mapM fun p => digests? rows p.2 p.1.1 p.1.2)
    l.send PairDigests.wire.list hashes
    pure share.values

end Guarded

/-- No stream of the input holder has gone further than `k` evaluations can take it. -/
structure Within (α : Type) [ShareRing α] (k : Nat) (s : InputHolder) : Prop where
  length_streams : s.streams.length = bits α
  counters_le : ∀ p ∈ s.streams,
    p.1.generator.counter ≤ k * 2 ^ 64 ∧ p.2.generator.counter ≤ k * 2 ^ 64

variable {s : InputHolder} {k n : Nat} {l : LinkEnd}
variable {α : Type}

theorem Within.mono [ShareRing α] {k' : Nat} (h : s.Within α k) (hle : k ≤ k') : s.Within α k' := by
  have hmul := Nat.mul_le_mul_right (2 ^ 64) hle
  refine ⟨h.length_streams, fun p hp => ?_⟩
  obtain ⟨hzero, hone⟩ := h.counters_le p hp
  exact ⟨Nat.le_trans hzero hmul, Nat.le_trans hone hmul⟩

theorem within_of_ofSeeds [ShareRing α] {seeds : List (Block × Block)} {passive : Bool}
    (h : ofSeeds α seeds passive = .ok s) : s.Within α 0 := by
  obtain ⟨_, hlength, h⟩ := bind_eq_ok_iff.mp h
  cases h
  refine ⟨by simpa using (checkLength_ok hlength).symm, forall_mem_map.mpr fun seed _ => ?_⟩
  exact ⟨Nat.zero_le _, Nat.zero_le _⟩

theorem guards_expandRows [ShareRing α] (hroom : n * bytes α < memoryLimit) (hn : n < 2 ^ 64)
    (hk : k < 2 ^ 64) (hs : s.Within α k) :
    Guards s (Guarded.expandRows n) (expandRows n)
      (fun (rows : List (Row α × Row α)) t => rows.length = bits α ∧ t.Within α (k + 1))
      (Within α (k + 1)) := by
  have hdraw : ∀ p ∈ s.streams, (do
      let zero ← Row.draw? n p.1
      let one ← Row.draw? n p.2
      some (zero, one))
        = some ((Row.random n p.1 : Row α × Keystream), (Row.random n p.2 : Row α × Keystream)) := by
    intro p hp
    obtain ⟨hzero, hone⟩ := hs.counters_le p hp
    rw [Row.draw?_eq hroom (by omega), Row.draw?_eq hroom (by omega)]
    rfl
  refine .getThen (.guard (mapM_eq_some hdraw) (.modifyThen (.pure ⟨?_, ?_, fun q hq => ?_⟩)))
  · simp [hs.length_streams]
  · simp [hs.length_streams]
  · obtain ⟨p, hp, rfl⟩ := mem_map.mp (map_map ▸ hq)
    obtain ⟨hzero, hone⟩ := hs.counters_le p hp
    exact ⟨Transfer.add_le_of_batch hzero (Nat.le_of_lt hn),
      Transfer.add_le_of_batch hone (Nat.le_of_lt hn)⟩

/-- **The input holder never faults**, whatever arrives. -/
theorem guards_evaluate {inputs : List r.Carrier}
    (hroom : inputs.length * bytes r.Carrier < memoryLimit) (hk : k < 2 ^ 64)
    (hs : s.Within r.Carrier k) :
    Leaves s (Guarded.evaluate l inputs) (evaluate l inputs) (Within r.Carrier (k + 1)) := by
  refine (guards_expandRows hroom (RingName.lt_of_room hroom) hk hs).andThen fun rows t ht => ?_
  obtain ⟨hrows, ht⟩ := ht
  have hu : rows.mapM (fun row => do
      (← row.1.front? WordRing.sub? row.2).update? WordRing.add? ⟨inputs⟩)
        = some (rows.map fun row => (row.1.minus row.2).add ⟨inputs⟩) :=
    mapM_eq_some fun row _ => by simp
  refine .guard hu (LinkEnd.guards_sendThen ?_)
  refine .guard (Row.zeros?_eq hroom) ?_
  have hstep : ∀ p ∈ rows.zipIdx, ∀ acc : Row r.Carrier, (do
      Row.addMultiple? (← WordRing.neg? (← WordRing.weight? p.2)) acc p.1.1)
        = some (Row.addMultiple (-basis p.2) acc p.1.1) := by
    intro p hp acc
    have hlt := snd_lt_of_mem_zipIdx hp
    rw [WordRing.weight?_eq (by omega)]
    simp
  refine .guard (foldlM_eq_some hstep) (.getThen (.ite (fun _ => .pure ht) fun _ => ?_))
  refine .bind (guards_challengePairs r.bits_le (fun pairs hpairs => ?_) ht)
  have hdigests : ∀ p ∈ pairs.zipIdx, digests? rows p.2 p.1.1 p.1.2
      = some (digests rows p.2 p.1.1 p.1.2) := by
    intro p hp
    obtain ⟨hfirst, hsecond⟩ := hpairs p.1 (fst_mem_of_mem_zipIdx hp)
    exact digests?_eq (hrows ▸ hfirst) (hrows ▸ hsecond) p.2
  exact .guard (mapM_eq_some hdigests) (LinkEnd.guards_sendThen (.pure ht))

end InputHolder

namespace KeyHolder

variable {r : RingName}

namespace Guarded

/-- The next rows of `n` elements from the stream of every key bit. -/
def expandRows {α : Type} [ShareRing α] (n : Nat) : Session (KeyHolder α) (List (Row α)) := do
  let expanded ← Session.total ((← get).streams.mapM (Row.draw? n))
  modify ({ · with streams := expanded.map (·.2) })
  pure (expanded.map (·.1))

/-- This party's shares of the key times the `n` inputs of the other. -/
def evaluate {α : Type} [ShareRing α] [WordRing α] (l : LinkEnd) (n : Nat) :
    Session (KeyHolder α) (List α) := do
  let rows ← expandRows n
  let u ← l.recvList "VOLE_u" (Row.wire α) (bits α)
  u.forM fun row => Session.check (checkLength n row.values.length)
  let key := (← get).key
  let share ← Session.total (share? key n rows u)
  if (← get).passive then pure share.values
  else
    let pairs ← Guarded.challengePairs l (bits α)
    let digests ← l.recvList "VOLE_check" PairDigests.wire pairs.length
    let good ← Session.total ((pairs.zip digests).zipIdx.mapM fun p =>
      verifyPair? key rows u p.2 p.1.1.1 p.1.1.2 p.1.2)
    if good.all id then pure share.values else Session.fail (.cheat .consistency)

end Guarded

/-- No stream of the key holder has gone further than `k` evaluations can take it. -/
structure Within {α : Type} [ShareRing α] (k : Nat) (s : KeyHolder α) : Prop where
  length_streams : s.streams.length = bits α
  counters_le : ∀ stream ∈ s.streams, stream.generator.counter ≤ k * 2 ^ 64

variable {k n : Nat} {l : LinkEnd}
variable {α : Type} {s : KeyHolder α}

theorem Within.mono [ShareRing α] {k' : Nat} (h : s.Within k) (hle : k ≤ k') : s.Within k' :=
  ⟨h.length_streams, fun stream hstream =>
    Nat.le_trans (h.counters_le stream hstream) (Nat.mul_le_mul_right _ hle)⟩

theorem within_of_ofSeeds [ShareRing α] {key : α} {seeds : List Block} {passive : Bool}
    (h : ofSeeds key seeds passive = .ok s) : s.Within 0 := by
  obtain ⟨_, hlength, h⟩ := bind_eq_ok_iff.mp h
  cases h
  refine ⟨by simpa using (checkLength_ok hlength).symm, forall_mem_map.mpr fun seed _ => ?_⟩
  exact Nat.zero_le _

theorem guards_expandRows [ShareRing α] (hroom : n * bytes α < memoryLimit) (hn : n < 2 ^ 64)
    (hk : k < 2 ^ 64) (hs : s.Within k) :
    Guards s (Guarded.expandRows n) (expandRows n)
      (fun rows t => rows.length = bits α ∧ t.Within (k + 1)) (Within (k + 1)) := by
  have hdraw : ∀ stream ∈ s.streams,
      (Row.draw? n stream : Option (Row α × Keystream)) = some (Row.random n stream) := by
    intro stream hstream
    have hle := hs.counters_le stream hstream
    exact Row.draw?_eq hroom (by omega)
  have hplain : ∀ stream ∈ s.streams,
      (Row.random? n stream : Option (Row α × Keystream)) = some (Row.random n stream) := by
    intro stream _
    rw [Row.random?, room?, if_pos hroom]
    rfl
  refine .getThen ?_
  rw [mapM_eq_some hdraw, mapM_eq_some hplain]
  refine .totalThen rfl (.modifyThen (.pure ⟨?_, ?_, fun stream hstream => ?_⟩))
  · simp [hs.length_streams]
  · simp [hs.length_streams]
  · obtain ⟨p, hp, rfl⟩ := mem_map.mp (map_map ▸ hstream)
    exact Transfer.add_le_of_batch (hs.counters_le p hp) (Nat.le_of_lt hn)

/-- **The key holder never faults**, whatever arrives. -/
theorem guards_evaluate {s : KeyHolder r.Carrier} (hroom : n * bytes r.Carrier < memoryLimit)
    (hk : k < 2 ^ 64) (hs : s.Within k) :
    Leaves s (Guarded.evaluate l n) (evaluate l n) (Within (k + 1)) := by
  refine (guards_expandRows hroom (RingName.lt_of_room hroom) hk hs).andThen fun rows t ht => ?_
  obtain ⟨hrows, ht⟩ := ht
  refine .bind (LinkEnd.guards_recvList (fun u hu => .bind (.forM_check (fun _ => ?_) ht)) ht)
  refine .getThen (.guard (share?_eq hroom hrows) (.getThen (.ite (fun _ => .pure ht) fun _ => ?_)))
  refine .bind (guards_challengePairs r.bits_le (fun pairs hpairs => ?_) ht)
  refine .bind (LinkEnd.guards_recvList (fun digests _ => ?_) ht)
  have hverify : ∀ p ∈ (pairs.zip digests).zipIdx,
      verifyPair? t.key rows u p.2 p.1.1.1 p.1.1.2 p.1.2
        = some (verifyPair t.key rows u p.2 p.1.1.1 p.1.1.2 p.1.2) := by
    intro p hp
    have hmem := (of_mem_zip (fst_mem_of_mem_zipIdx hp)).1
    obtain ⟨hfirst, hsecond⟩ := hpairs p.1.1 hmem
    exact verifyPair?_eq hrows hu hfirst hsecond p.2 p.1.2
  refine .guard (mapM_eq_some hverify) ?_
  rw [all_map]
  exact .ite (fun _ => .pure ht) fun _ => .fail ht

end KeyHolder

end LinearEvaluation

end Beaver
