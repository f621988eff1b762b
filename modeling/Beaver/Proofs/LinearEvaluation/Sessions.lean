import Mathlib
import Beaver.Multiplier
import Beaver.Proofs.LinearEvaluation.Pairs
import Beaver.Proofs.NetworkRun
import Beaver.Proofs.Ring.Instances

/-!
# Sessions of linear evaluations

Both ends advance their streams by the same number of elements in every evaluation, so
evaluations of any lengths can follow each other (`meets_session`).  On a network this
says that honest sessions succeed, whatever coins are tossed, and that the shares of each
evaluation add up to the key times its inputs (`session_evaluates`).
-/

namespace Beaver

open List
open ShareRing

/-- What memory has room for can be counted. -/
theorem RingName.lt_of_room {r : RingName} {n : Nat} (h : n * bytes r.Carrier < memoryLimit) :
    n < 2 ^ 64 := by
  have hle : n ≤ n * bytes r.Carrier := Nat.le_mul_of_pos_right n r.bytes_pos
  have hlimit : memoryLimit = 2 ^ 63 := rfl
  omega

theorem Transfer.map_chosenKeys (seeds : List (Block × Block)) (choices : List Bool) :
    (chosenKeys seeds choices).map Keystream.ofSeed = chosenKeys (pairStreams seeds) choices := by
  refine ext_getElem (by simp [chosenKeys, pairStreams]) fun j hj _ => ?_
  simp only [chosenKeys, pairStreams, getElem_map, getElem_zipIdx]
  split <;> rfl

namespace LinearEvaluation

theorem PairDigests.carries_wire {d : PairDigests} (h : ∀ a b, (d.get a b).length = 32) :
    wire.Carries d := by
  have hpair : ∀ a, ((Wire.bytes 32).pair (Wire.bytes 32)).Carries (d.get a false, d.get a true) :=
    fun a => .pair (Wire.carries_bytes (h a false)) (Wire.carries_bytes (h a true))
  unfold wire
  refine Wire.Carries.map ?_ ?_
  · exact .pair (hpair false) (hpair true)
  · rfl

theorem InputHolder.carries_digests {α : Type} [ShareRing α] (rows : List (Row α × Row α))
    (i first second : Nat) : PairDigests.wire.Carries (digests rows i first second) :=
  PairDigests.carries_wire fun a b => by
    rw [digests, PairDigests.get_ofFn]
    exact Digest.length_keyed _ _ _

/-- The pairs of columns that two seeds give. -/
def tossedPairs (columns : Nat) (seed seed' : Bytes) : List (Nat × Nat) :=
  drawPairs columns columns (CoinStream.ofSeed (Bytes.xor seed seed'))

/-- What the key holder makes of its share. -/
def outcome {α : Type} (accepted : Bool) (share : List α) : Except Failure (List α) :=
  if accepted then .ok share else .error (.error (.cheat .consistency))

section Meeting

variable {r : RingName} {i j : Nat} {l l' : LinkEnd} {passive : Bool}

/-- **Both ends compare pairs of columns**, and the key holder decides. -/
theorem meets_conclude (hl : LinkEnd.Joined i j l l') (hbits : passive = false → 2 ≤ bits r.Carrier)
    (key : r.Carrier) (s : Columns) (rows : List (Row r.Carrier × Row r.Carrier))
    (chosen u : List (Row r.Carrier)) (mine theirs : List r.Carrier) (t v : Tape) :
    Meets i j (fun a b _ _ => a = (.ok mine, InputHolder.ofColumns r.Carrier passive s) ∧
        b = (outcome (passive || accepts key rows chosen u
          (tossedPairs (bits r.Carrier) (t.next 32) (v.next 32))) theirs,
          KeyHolder.ofColumns passive key s))
      ((InputHolder.conclude l rows mine).start (InputHolder.ofColumns r.Carrier passive s))
      ((KeyHolder.conclude l' key chosen u theirs).start (KeyHolder.ofColumns passive key s))
      [] [] t v := by
  rw [InputHolder.conclude, KeyHolder.conclude, Session.start_bind_of_done (Session.start_get _),
    Session.start_bind_of_done (Session.start_get _)]
  cases passive with
  | true => exact .done ⟨rfl, rfl⟩
  | false =>
    have hfew : ¬ bits r.Carrier < 2 := Nat.not_lt.mpr (hbits rfl)
    simp only [InputHolder.ofColumns, KeyHolder.ofColumns, Bool.false_eq_true, if_false,
      challengePairs, if_neg hfew, pure_bind, bind_assoc]
    refine Meets.pairwise hl ?_
    have hpairs : ∀ pairs : List (Nat × Nat), pairs.length < 2 ^ 64 → PairDigests.wire.list.Carries
        (pairs.zipIdx.map fun p => InputHolder.digests rows p.2 p.1.1 p.1.2) := by
      intro pairs hlength
      refine .list (fun d hd => ?_) (by simpa using hlength)
      obtain ⟨p, -, rfl⟩ := mem_map.mp hd
      exact InputHolder.carries_digests rows _ _ _
    refine Meets.send_recvList hl (hpairs _ ?_) (by simp) ?_
    · rw [length_drawPairs]
      exact r.bits_lt
    · rw [all_zip_digests, outcome, Bool.false_or, tossedPairs]
      split
      · exact .done ⟨rfl, rfl⟩
      · exact .done ⟨rfl, rfl⟩

/-- The digests of all pairs of `n` elements are distinct. -/
def Separated (α : Type) [ShareRing α] (s : Columns) (n : Nat) : Prop :=
  ∀ i first second, i < bits α → first < bits α → second < bits α → first ≠ second →
    (InputHolder.digests (rowsOf α s n) i first second).distinct = true

variable {s : Columns} {seed seed' : Bytes}

/-- Without errors all pairs with distinct digests are accepted. -/
theorem accepts_correction {n : Nat} (hbits : 2 ≤ bits r.Carrier) (key : r.Carrier)
    (x : Nat → r.Carrier)
    (hdistinct : ∀ (m : Nat) p, (tossedPairs (bits r.Carrier) seed seed')[m]? = some p →
      (InputHolder.digests (rowsOf r.Carrier s n) m p.1 p.2).distinct = true) :
    accepts key (rowsOf r.Carrier s n) (chosenRows key s n) (rowsFor n (correction s x))
      (tossedPairs (bits r.Carrier) seed seed') = true := by
  rw [accepts_iff]
  intro m p hp
  obtain ⟨hfirst, hsecond, -⟩ := of_mem_drawPairs hbits (mem_of_getElem? hp)
  have hright : Row.ofFn n (inferredCell key s (fun _ _ => 0) p.1 p.2)
      = .ofFn n (combinedCell s p.1 p.2 (!bit key p.1) (!bit key p.2)) :=
    Row.ofFn_congr fun k _ => (inferredCell_eq_iff key s _ p.1 p.2 k).mpr rfl
  rw [← faulty_zero, verifyPair_eq hfirst hsecond, hdistinct m p hp, hright]
  simp

theorem Separated.distinct {n : Nat} (hs : Separated r.Carrier s n) (hbits : 2 ≤ bits r.Carrier)
    {m : Nat} {p : Nat × Nat} (hp : (tossedPairs (bits r.Carrier) seed seed')[m]? = some p) :
    (InputHolder.digests (rowsOf r.Carrier s n) m p.1 p.2).distinct = true := by
  have hm : m < bits r.Carrier := by
    have hlt := (List.getElem?_eq_some_iff.mp hp).1
    rwa [tossedPairs, length_drawPairs] at hlt
  obtain ⟨hfirst, hsecond, hne⟩ := of_mem_drawPairs hbits (mem_of_getElem? hp)
  exact hs m p.1 p.2 hm hfirst hsecond hne

/-- **An honest evaluation.**  If the digests of the tossed pairs are distinct, both ends get
their shares and advance their streams. -/
theorem meets_evaluate (hl : LinkEnd.Joined i j l l') (key : r.Carrier) (s : Columns)
    {inputs : List r.Carrier} (hroom : inputs.length * bytes r.Carrier < memoryLimit) {t v : Tape}
    (hactive : passive = false → 2 ≤ bits r.Carrier ∧ ∀ (m : Nat) p,
      (tossedPairs (bits r.Carrier) (t.next 32) (v.next 32))[m]? = some p →
      (InputHolder.digests (rowsOf r.Carrier s inputs.length) m p.1 p.2).distinct = true) :
    Meets i j (fun a b _ _ =>
        a = (.ok ((range inputs.length).map (InputHolder.share s)),
          InputHolder.ofColumns r.Carrier passive (s.advance inputs.length)) ∧
        b = (.ok ((range inputs.length).map
            (KeyHolder.share key s (correction s (Row.entry ⟨inputs⟩)))),
          KeyHolder.ofColumns passive key (s.advance inputs.length)))
      ((InputHolder.evaluate l inputs).start (InputHolder.ofColumns r.Carrier passive s))
      ((KeyHolder.evaluate l' inputs.length).start (KeyHolder.ofColumns passive key s)) [] [] t v := by
  obtain ⟨next, hwaits, hgoes⟩ := KeyHolder.start_evaluate l' hroom (RingName.lt_of_room hroom)
    r.bits_lt passive key s
  rw [InputHolder.start_evaluate, hwaits, hl.address, hl.address']
  refine .sendLeft (.recvRight ?_)
  rw [hgoes]
  refine (meets_conclude hl (fun h => (hactive h).1) key _ _ _ _ _ _ t v).mono ?_
  rintro _ _ _ _ ⟨rfl, rfl⟩
  refine ⟨rfl, ?_⟩
  cases passive with
  | true => rfl
  | false =>
    obtain ⟨hbits, hdistinct⟩ := hactive rfl
    rw [accepts_correction hbits key _ hdistinct]
    rfl

end Meeting

section Session

variable {r : RingName} {i j : Nat} {l l' : LinkEnd} {passive : Bool}

/-- Evaluates one list of inputs after the other. -/
def InputHolder.evaluateAll {α : Type} [ShareRing α] (l : LinkEnd) (calls : List (List α)) :
    Session InputHolder (List (List α)) :=
  calls.mapM (evaluate l)

/-- Evaluates lists of the given lengths one after the other. -/
def KeyHolder.evaluateAll {α : Type} [ShareRing α] (l : LinkEnd) (sizes : List Nat) :
    Session (KeyHolder α) (List (List α)) :=
  sizes.mapM (evaluate l)

/-- The digests of all pairs are distinct in every evaluation of a session. -/
def SeparatedIn (α : Type) [ShareRing α] (s : Columns) : List Nat → Prop
  | [] => True
  | n :: ns => Separated α s n ∧ SeparatedIn α (s.advance n) ns

variable {α : Type} {s : Columns} {calls : List (List r.Carrier)} {seeds : List (Block × Block)}

theorem separatedIn_append [ShareRing α] {ns ns' : List Nat} :
    SeparatedIn α s (ns ++ ns')
      ↔ SeparatedIn α s ns ∧ SeparatedIn α (ns.foldl Columns.advance s) ns' := by
  induction ns generalizing s with
  | nil => exact ⟨fun h => ⟨trivial, h⟩, fun h => h.2⟩
  | cons n ns ih => rw [cons_append, SeparatedIn, SeparatedIn, ih, and_assoc, foldl_cons]

/-- What the input holder gets in a session. -/
def InputHolder.sharesIn {α : Type} [ShareRing α] (s : Columns) : List (List α) → List (List α)
  | [] => []
  | inputs :: calls =>
    (range inputs.length).map (share s) :: sharesIn (s.advance inputs.length) calls

/-- What the key holder gets in a session. -/
def KeyHolder.sharesIn {α : Type} [ShareRing α] (key : α) (s : Columns) :
    List (List α) → List (List α)
  | [] => []
  | inputs :: calls =>
    (range inputs.length).map (share key s (correction s (Row.entry ⟨inputs⟩)))
      :: sharesIn key (s.advance inputs.length) calls

/-- **Honest evaluations follow each other.** -/
theorem meets_session (hl : LinkEnd.Joined i j l l') (key : r.Carrier) (s : Columns)
    (hroom : ∀ inputs ∈ calls, inputs.length * bytes r.Carrier < memoryLimit)
    (hactive : passive = false →
      2 ≤ bits r.Carrier ∧ SeparatedIn r.Carrier s (calls.map length))
    (t v : Tape) :
    Meets i j (fun a b _ _ => ∃ h k, a = (.ok (InputHolder.sharesIn s calls), h) ∧
        b = (.ok (KeyHolder.sharesIn key s calls), k))
      ((InputHolder.evaluateAll l calls).start (InputHolder.ofColumns r.Carrier passive s))
      ((KeyHolder.evaluateAll l' (calls.map length)).start (KeyHolder.ofColumns passive key s))
      [] [] t v := by
  induction calls generalizing s t v with
  | nil => exact .done ⟨_, _, rfl, rfl⟩
  | cons inputs calls ih =>
    rw [InputHolder.evaluateAll, KeyHolder.evaluateAll, map_cons, mapM_cons,
      mapM_cons, Session.start_bind, Session.start_bind]
    have hdistinct : passive = false → 2 ≤ bits r.Carrier ∧ ∀ (m : Nat) p,
        (tossedPairs (bits r.Carrier) (t.next 32) (v.next 32))[m]? = some p →
        (InputHolder.digests (rowsOf r.Carrier s inputs.length) m p.1 p.2).distinct = true := by
      intro h
      obtain ⟨hbits, hfirst, -⟩ := hactive h
      exact ⟨hbits, fun m p hp => hfirst.distinct hbits hp⟩
    refine (meets_evaluate hl key s (hroom inputs mem_cons_self) hdistinct).bind ?_
    rintro _ _ t v ⟨rfl, rfl⟩
    rw [Session.resume_ok, Session.resume_ok, Session.start_bind, Session.start_bind]
    refine (ih (s.advance inputs.length) (fun x hx => hroom x (mem_cons_of_mem inputs hx))
      (fun h => ⟨(hactive h).1, (hactive h).2.2⟩) t v).bind ?_
    rintro _ _ t v ⟨h, k, rfl, rfl⟩
    exact .done ⟨h, k, rfl, rfl⟩

/-- The shares of one evaluation. -/
theorem addUp_shares (key : r.Carrier) (s : Columns) (inputs : List r.Carrier) :
    AddUp ((range inputs.length).map (InputHolder.share s))
      ((range inputs.length).map (KeyHolder.share key s (correction s (Row.entry ⟨inputs⟩))))
      (inputs.map (key * ·)) := by
  have hnone : ∀ k, selectedError key (fun _ _ => 0) k = 0 := by
    intro k
    simp only [selectedError, mul_zero, total_zero]
  have hsum : ∀ k < inputs.length, InputHolder.share s k
      + KeyHolder.share key s (correction s (Row.entry ⟨inputs⟩)) k = key * Row.entry ⟨inputs⟩ k := by
    intro k _
    have hadd := shares_add key s (Row.entry ⟨inputs⟩) (fun _ _ => 0) k
    rwa [faulty_zero, hnone, add_zero] at hadd
  have hinputs : inputs.map (key * ·)
      = (range inputs.length).map fun k => key * Row.entry ⟨inputs⟩ k := by
    conv_lhs => rw [← Row.map_range_entry inputs, map_map]
    rfl
  rw [hinputs]
  exact .of_fn hsum

theorem length_sharesIn (key : r.Carrier) (s : Columns) (calls : List (List r.Carrier)) :
    (InputHolder.sharesIn s calls).length = calls.length ∧
      (KeyHolder.sharesIn key s calls).length = calls.length := by
  induction calls generalizing s with
  | nil => exact ⟨rfl, rfl⟩
  | cons inputs calls ih =>
    obtain ⟨hmine, htheirs⟩ := ih (s.advance inputs.length)
    exact ⟨congrArg (· + 1) hmine, congrArg (· + 1) htheirs⟩

/-- The shares of every evaluation of a session. -/
theorem addUp_sharesIn {key : r.Carrier} {m : Nat} {inputs mine theirs : List r.Carrier}
    (hinputs : calls[m]? = some inputs) (hmine : (InputHolder.sharesIn s calls)[m]? = some mine)
    (htheirs : (KeyHolder.sharesIn key s calls)[m]? = some theirs) :
    AddUp mine theirs (inputs.map (key * ·)) := by
  induction calls generalizing s m with
  | nil => cases hinputs
  | cons first calls ih =>
    cases m with
    | zero =>
      cases hinputs
      cases hmine
      cases htheirs
      exact addUp_shares key s _
    | succ m => exact ih hinputs hmine htheirs

theorem InputHolder.ofSeeds_eq [ShareRing α] (h : seeds.length = bits α) (passive : Bool) :
    ofSeeds α seeds passive = .ok (ofColumns α passive (.ofList (Transfer.pairStreams seeds))) := by
  have hlength : (Transfer.pairStreams seeds).length = bits α := by simp [Transfer.pairStreams, h]
  rw [ofSeeds, h, checkLength, if_pos rfl, ofColumns, Columns.map_range_ofList hlength]
  rfl

theorem KeyHolder.ofSeeds_eq [ShareRing α] (h : seeds.length = bits α) (key : α) (passive : Bool) :
    ofSeeds key (Transfer.chosenKeys seeds (Multiplier.elementBits key)) passive
      = .ok (ofColumns passive key (.ofList (Transfer.pairStreams seeds))) := by
  have hlength : (Transfer.pairStreams seeds).length = bits α := by simp [Transfer.pairStreams, h]
  have hchosen : (Transfer.chosenKeys seeds (Multiplier.elementBits key)).length = bits α := by
    simp [Transfer.chosenKeys, h]
  rw [ofSeeds, hchosen, checkLength, if_pos rfl, ofColumns, Transfer.map_chosenKeys,
    Multiplier.elementBits, Columns.chosenKeys_eq hlength]
  rfl

/-- **Sessions of honest evaluations.**  From one transfer for every bit of the key,
evaluations of any lengths succeed, whatever coins the two ends have.  What they get does
not depend on the coins, and the shares of every evaluation add up to the key times its
inputs. -/
theorem session_evaluates (key : r.Carrier) (seeds : List (Block × Block))
    (hseeds : seeds.length = bits r.Carrier) (passive : Bool) (hl : LinkEnd.Joined 0 1 l l')
    {calls : List (List r.Carrier)}
    (hroom : ∀ inputs ∈ calls, inputs.length * bytes r.Carrier < memoryLimit)
    (hactive : passive = false → 2 ≤ bits r.Carrier ∧ SeparatedIn r.Carrier
      (.ofList (Transfer.pairStreams seeds)) (calls.map length)) :
    ∃ h k, InputHolder.ofSeeds r.Carrier seeds passive = .ok h ∧
      KeyHolder.ofSeeds key (Transfer.chosenKeys seeds (Multiplier.elementBits key)) passive = .ok k ∧
      ∃ mine theirs, mine.length = calls.length ∧ theirs.length = calls.length ∧
        (∀ (m : Nat) inputs a b, calls[m]? = some inputs → mine[m]? = some a → theirs[m]? = some b →
          AddUp a b (inputs.map (key * ·))) ∧
        ∀ c d : Coins, ∃ h' k' net, (Network.ofCoins [c, d]).runPair .honest
            ((InputHolder.evaluateAll l calls).start h)
            ((KeyHolder.evaluateAll l' (calls.map length)).start k)
          = (some (.ok mine, h'), some (.ok theirs, k'), net) := by
  refine ⟨_, _, InputHolder.ofSeeds_eq hseeds passive, KeyHolder.ofSeeds_eq hseeds key passive,
    InputHolder.sharesIn (.ofList (Transfer.pairStreams seeds)) calls,
    KeyHolder.sharesIn key (.ofList (Transfer.pairStreams seeds)) calls,
    (length_sharesIn key _ calls).1, (length_sharesIn key _ calls).2,
    fun m inputs a b hinputs ha hb => addUp_sharesIn hinputs ha hb, fun c d => ?_⟩
  obtain ⟨_, _, _, _, net, ⟨h', k', rfl, rfl⟩, hrun⟩ :=
    Network.runPair_honest (meets_session hl key _ hroom hactive c.tape d.tape)
  exact ⟨h', k', net, hrun⟩

/-- In characteristic two, rows of the same stream combine to zeros. -/
theorem combinedCell_same (z : Keystream) (first second : Nat) (a b : Bool) (k : Nat) :
    combinedCell (α := Gf128) (fun _ _ => z) first second a b k = 0 := by
  have hdouble : ∀ x : Gf128, x + x = 0 := fun x => congrArg Gf128.mk x.block.xor_self
  rw [combinedCell]
  split
  · exact sub_self _
  · exact hdouble _

theorem distinct_zero : ∀ i < 128,
    (PairDigests.ofFn fun a b => pairDigest i a b (⟨[0]⟩ : Row Gf128)).distinct = true := by
  decide +kernel

theorem separated_same (z : Keystream) : Separated Gf128 (fun _ _ => z) 1 := by
  intro i first second hi hfirst hsecond _
  have hrow : ∀ a b, Row.ofFn 1 (combinedCell (α := Gf128) (fun _ _ => z) first second a b) = ⟨[0]⟩ :=
    fun a b => Row.ofFn_congr fun k _ => combinedCell_same z first second a b k
  rw [digests_rowsOf hfirst hsecond]
  simp only [hrow]
  exact distinct_zero i hi

theorem separatedIn_same (z : Keystream) (m : Nat) :
    SeparatedIn Gf128 (fun _ _ => z) (replicate m 1) := by
  induction m generalizing z with
  | zero => trivial
  | succ m ih => exact ⟨separated_same z, ih (z.blocks 1).2⟩

theorem Columns.ofList_replicate (n : Nat) :
    ofList (Transfer.pairStreams (replicate n (.zero, .zero))) = fun _ _ => .ofSeed .zero := by
  funext j c
  rw [ofList, Transfer.pairStreams, map_replicate, getElem?_replicate]
  by_cases hj : j < n
  · rw [if_pos hj]
    exact ite_self _
  · rw [if_neg hj]
    rfl

/-- Three evaluations with checks, from equal seeds. -/
theorem session_evaluates_three :
    let seeds := replicate 128 (Block.zero, Block.zero)
    let key : Gf128 := ⟨Block.ofNat 5⟩
    let calls : List (List Gf128) := [[1], [key], [⟨Block.ofNat (2 ^ 127)⟩]]
    ∃ h k, InputHolder.ofSeeds Gf128 seeds false = .ok h ∧
      KeyHolder.ofSeeds key (Transfer.chosenKeys seeds (Multiplier.elementBits key)) false = .ok k ∧
      ∃ mine theirs, (∀ (m : Nat) inputs a b, calls[m]? = some inputs → mine[m]? = some a →
          theirs[m]? = some b → AddUp a b (inputs.map (key * ·))) ∧
        ∀ c d : Coins, ∃ h' k' net, (Network.ofCoins [c, d]).runPair .honest
            ((InputHolder.evaluateAll ⟨1, 0, 1⟩ calls).start h)
            ((KeyHolder.evaluateAll ⟨0, 1, 0⟩ [1, 1, 1]).start k)
          = (some (.ok mine, h'), some (.ok theirs, k'), net) := by
  intro seeds key calls
  have hroom : ∀ inputs ∈ calls, inputs.length * bytes Gf128 < memoryLimit := by decide
  have hseparated : SeparatedIn Gf128 (.ofList (Transfer.pairStreams seeds)) [1, 1, 1] := by
    rw [Columns.ofList_replicate]
    exact separatedIn_same _ 3
  have hbits : 2 ≤ bits Gf128 := by decide
  obtain ⟨h, k, hh, hk, mine, theirs, -, -, hsum, hrun⟩ := @session_evaluates .gf128 _ _ key seeds
    length_replicate false (LinkEnd.joined_mk Nat.zero_ne_one) calls hroom fun _ => ⟨hbits, hseparated⟩
  exact ⟨h, k, hh, hk, mine, theirs, hsum, hrun⟩

end Session

end LinearEvaluation

end Beaver
