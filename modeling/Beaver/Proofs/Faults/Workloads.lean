import Beaver.Proofs.Faults.Multipliers
import Beaver.Proofs.Faults.Sacrifices
import Beaver.Sacrifice.Data

/-!
# No peer can cause a fault

A workload is all that a party does with one of its objects from the time it is new: the
calls that are made on it, one after the other, also after some of them have failed.  The
peers decide what arrives at every message of every call, or that nothing does.

`Workload.guarded` looks at every index, word, counter and shift on the way, and
`Workload.plain` is made of the definitions that run.  For workloads whose sizes fit in a
word both do the same, and every call comes to a result or to an error
(`Workload.never_faults`).
-/

namespace Beaver

open List
open ShareRing LinearEvaluation
open Session (Guards Leaves)

namespace Session

variable {σ τ α β : Type}

/-- Makes an object and then all calls on it, whatever becomes of those before. -/
def calls (new : Session τ σ) (call : β → Session σ α) (inputs : List β) :
    Session τ (List (Except Failure α)) := do
  let s ← new
  let (outcomes, _) ← borrow (runEach call (fun _ => true) inputs) s
  pure outcomes

/-- If the object is new with `I` for all calls, and every call keeps `I` for those that are
left, no call faults. -/
theorem Guards.calls {I : List β → σ → Prop} {t : τ} {new new' : Session τ σ}
    {g p : β → Session σ α} {inputs : List β}
    (hnew : Guards t new new' (fun s _ => I inputs s) fun _ => True)
    (hcall : ∀ x rest s, I (x :: rest) s → Leaves s (g x) (p x) (I rest)) :
    Guards t (Session.calls new g inputs) (Session.calls new' p inputs)
      (fun outcomes _ => outcomes.length = inputs.length ∧ ∀ o ∈ outcomes, o ≠ .error .fault)
      fun _ => True := by
  refine hnew.andThen fun s u hs => ?_
  exact .bind (.borrow ((runEach hcall hs).mono (fun _ _ h => .pure h) fun _ h => h.elim))

end Session

namespace MacCheck

/-- A call of a tag checker. -/
inductive Call (τ μ : Type) where
  | openShares (phase : String) (shares : List (Share τ μ))
  | check

variable {τ μ : Type} [ShareRing τ] [ShareRing μ] [Lift τ μ]

/-- Makes a call; a check has no values. -/
def Call.run (p : Player) : Call τ μ → Session (MacCheck μ) (List τ)
  | openShares phase shares => MacCheck.openShares p phase shares
  | check => do
      MacCheck.check p
      pure []

/-- Makes a call with guards. -/
def Call.guarded [WordRing τ] [WordRing μ] (p : Player) : Call τ μ → Session (MacCheck μ) (List τ)
  | openShares phase shares => Guarded.openShares p phase shares
  | check => do
      Guarded.check p
      pure []

theorem guards_call [WordRing τ] [WordRing μ] [LawfulShareRing τ] [LawfulShareRing μ]
    {s : MacCheck μ} {p : Player} (call : Call τ μ) :
    Leaves s (call.guarded p) (call.run p) fun _ => True := by
  cases call with
  | openShares phase shares => exact guards_openShares.mono (fun _ _ _ => trivial) fun _ h => h
  | check => exact guards_check.andThen fun _ _ _ => .pure trivial

end MacCheck

namespace Sacrifice

/-- A check by sacrifice and what it works on. -/
inductive Call (φ : Type) where
  | triples (candidates : List (Triple φ φ))
  | squares (candidates : List (SquarePair φ))
  | bits (items : List (Share φ φ)) (helpers : List (Triple φ φ))
  | inverses (pairs : List (Share φ φ × Share φ φ)) (helpers : List (Triple φ φ))
  | inversesFromTriples (items : List (Triple φ φ))
  | bitsFromSquares (items : List (SquarePair φ))

/-- The number of items that a call works on. -/
def Call.size {φ : Type} : Call φ → Nat
  | triples items | inversesFromTriples items => items.length
  | squares items | bitsFromSquares items => items.length
  | bits items _ => items.length
  | inverses pairs _ => pairs.length

/-- How to make bits from squares, in the fields where roots can be taken. -/
def makeBits : (f : FieldName) → BitMaker f.Carrier
  | .mersenne61 => some (bitsFromSquares (ψ := Mersenne61))
  | .mersenne127 => some (bitsFromSquares (ψ := Mersenne127))
  | .gf128 | .gf2 => none

/-- How to make bits from squares with guards. -/
def Guarded.makeBits : (f : FieldName) → BitMaker f.Carrier
  | .mersenne61 => some (Guarded.bitsFromSquares (ψ := Mersenne61))
  | .mersenne127 => some (Guarded.bitsFromSquares (ψ := Mersenne127))
  | .gf128 | .gf2 => none

variable {f : FieldName}

/-- Makes a call; its items are lists of shares. -/
def Call.run (c : Setting) : Call f.Carrier → Session (Sacrifice f.Carrier) (Items f.Carrier)
  | triples candidates => (·.map Triple.parts) <$> Sacrifice.triples c candidates
  | squares candidates => (·.map fun p => [p.1, p.2]) <$> Sacrifice.squares c candidates
  | bits items helpers => (·.map fun b => [b]) <$> Sacrifice.bits c items helpers
  | inverses pairs helpers => (·.map fun p => [p.1, p.2]) <$> Sacrifice.inverses c pairs helpers
  | inversesFromTriples items =>
    (·.map fun p => [p.1, p.2]) <$> Sacrifice.inversesFromTriples c items
  | bitsFromSquares items =>
    match makeBits f with
    | none => Session.fail (.unsupported "bits_from_squares")
    | some make => (·.map fun b => [b]) <$> make c items

/-- Makes a call with guards. -/
def Call.guarded (c : Setting) : Call f.Carrier → Session (Sacrifice f.Carrier) (Items f.Carrier)
  | triples candidates => (·.map Triple.parts) <$> Guarded.triples c candidates
  | squares candidates => (·.map fun p => [p.1, p.2]) <$> Guarded.squares c candidates
  | bits items helpers => (·.map fun b => [b]) <$> Guarded.bits c items helpers
  | inverses pairs helpers => (·.map fun p => [p.1, p.2]) <$> Guarded.inverses c pairs helpers
  | inversesFromTriples items =>
    (·.map fun p => [p.1, p.2]) <$> Guarded.inversesFromTriples c items
  | bitsFromSquares items =>
    match Guarded.makeBits f with
    | none => Session.fail (.unsupported "bits_from_squares")
    | some make => (·.map fun b => [b]) <$> make c items

/-- A call takes the number of batches no further than its items. -/
theorem guards_call {s : Sacrifice f.Carrier} {c : Setting} (hc : 0 < c.amortize)
    (hword : c.amortize < 2 ^ 64) {call : Call f.Carrier} (hroom : call.size < memoryLimit)
    (hbatch : s.batch + call.size < 2 ^ 64) :
    Leaves s (call.guarded c) (call.run c) fun t => t.batch ≤ s.batch + call.size := by
  have hsame : ∀ t : Sacrifice f.Carrier, t.batch = s.batch → t.batch ≤ s.batch + call.size :=
    fun t ht => Nat.le_trans (Nat.le_of_eq ht) (Nat.le_add_right _ _)
  cases call with
  | triples candidates => exact (guards_triples hc hbatch).map fun _ _ h => h
  | squares candidates => exact (guards_squares hc hbatch).map fun _ _ h => h
  | bits items helpers => exact (guards_bits hc hword hroom hbatch).map fun _ _ h => h
  | inverses pairs helpers => exact (guards_inverses hc hword hroom hbatch).map fun _ _ h => h
  | inversesFromTriples items =>
    exact ((guards_inversesFromTriples hc).mono hsame).map fun _ _ h => h
  | bitsFromSquares items =>
    cases f with
    | mersenne61 =>
      exact ((guards_bitsFromSquares hc).mono hsame).map fun _ _ h => h
    | mersenne127 =>
      exact ((guards_bitsFromSquares hc).mono hsame).map fun _ _ h => h
    | gf128 => exact .fail (hsame s rfl)
    | gf2 => exact .fail (hsame s rfl)

end Sacrifice

/-- What a party does with one of its objects. -/
inductive Workload where
  /-- Batches of extended transfers, sent to the peer. -/
  | send (l : LinkEnd) (delta : BitString) (keys : List Block) (passive : Bool) (sizes : List Nat)
  /-- Batches of extended transfers, received for choices. -/
  | receive (l : LinkEnd) (keys : List (Block × Block)) (passive : Bool)
      (choices : List BitString)
  /-- Evaluations of this party's vectors under the peer's key. -/
  | evaluateInputs (r : RingName) (l : LinkEnd) (keys : List (Block × Block)) (passive : Bool)
      (vectors : List (List r.Carrier))
  /-- Evaluations of the peer's vectors under this party's key. -/
  | evaluateKey (r : RingName) (l : LinkEnd) (key : r.Carrier) (keys : List Block)
      (passive : Bool) (sizes : List Nat)
  /-- The jobs of a multiplier, after its setup from base transfers. -/
  | process (d : Domain) (l : LinkEnd) (sent : List (Block × Block)) (received : List Block)
      (choices : BitString) (key : Option d.tag.Carrier) (passive : Bool)
      (jobs : List (Multiplier.Job d.value.Carrier))
  /-- Openings and checks of a tag checker among all parties. -/
  | openings (d : Domain) (p : Player) (key : d.tag.Carrier)
      (calls : List (MacCheck.Call d.value.Carrier d.tag.Carrier))
  /-- Checks by sacrifice, with a tag checker that may have been used before. -/
  | sacrifices (f : FieldName) (p : Player) (amortize : Nat) (checker : MacCheck f.Carrier)
      (calls : List (Sacrifice.Call f.Carrier))

namespace Workload

/-- What a call returns. -/
def Result : Workload → Type
  | send .. => List (Block × Block)
  | receive .. => List Block
  | evaluateInputs r .. => List r.Carrier
  | evaluateKey r .. => List r.Carrier
  | process d .. => Multiplier.Output d.value.Carrier d.tag.Carrier
  | openings d .. => List d.value.Carrier
  | sacrifices f .. => Sacrifice.Items f.Carrier

/-- The number of calls. -/
def count : Workload → Nat
  | send _ _ _ _ sizes => sizes.length
  | receive _ _ _ choices => choices.length
  | evaluateInputs _ _ _ _ vectors => vectors.length
  | evaluateKey _ _ _ _ _ sizes => sizes.length
  | process _ _ _ _ _ _ _ jobs => jobs.length
  | openings _ _ _ calls => calls.length
  | sacrifices _ _ _ _ calls => calls.length

/-- The calls, as they run. -/
def plain : (w : Workload) → Session Unit (List (Except Failure w.Result))
  | send l delta keys passive sizes =>
    Session.calls (Session.check (Transfer.Sender.ofSeeds delta (keys.map .ofSeed) passive))
      (Transfer.Sender.send l) sizes
  | receive l keys passive choices =>
    Session.calls (Session.check (Transfer.Receiver.ofSeeds (Transfer.pairStreams keys) passive))
      (Transfer.Receiver.receive l) choices
  | evaluateInputs r l keys passive vectors =>
    Session.calls (Session.check (InputHolder.ofSeeds r.Carrier keys passive))
      (InputHolder.evaluate l) vectors
  | evaluateKey _ l key keys passive sizes =>
    Session.calls (Session.check (KeyHolder.ofSeeds key keys passive)) (KeyHolder.evaluate l) sizes
  | process _ l sent received choices key passive jobs =>
    Session.calls (Multiplier.setup l
      ⟨Transfer.pairStreams sent, received.map .ofSeed, choices⟩ key passive)
      (Multiplier.process l) jobs
  | openings _ p key calls => Session.calls (pure (MacCheck.ofKey key)) (MacCheck.Call.run p) calls
  | sacrifices _ p amortize checker calls => do
      let c ← Session.check (Sacrifice.Setting.of p amortize)
      Session.calls (pure ⟨checker, 0⟩) (Sacrifice.Call.run c) calls

/-- The calls with guards. -/
def guarded : (w : Workload) → Session Unit (List (Except Failure w.Result))
  | send l delta keys passive sizes =>
    Session.calls (Session.check (Transfer.Sender.ofSeeds delta (keys.map .ofSeed) passive))
      (Transfer.Sender.Guarded.send l) sizes
  | receive l keys passive choices =>
    Session.calls (Session.check (Transfer.Receiver.ofSeeds (Transfer.pairStreams keys) passive))
      (Transfer.Receiver.Guarded.receive l) choices
  | evaluateInputs r l keys passive vectors =>
    Session.calls (Session.check (InputHolder.ofSeeds r.Carrier keys passive))
      (InputHolder.Guarded.evaluate l) vectors
  | evaluateKey _ l key keys passive sizes =>
    Session.calls (Session.check (KeyHolder.ofSeeds key keys passive))
      (KeyHolder.Guarded.evaluate l) sizes
  | process _ l sent received choices key passive jobs =>
    Session.calls (Multiplier.Guarded.setup l
      ⟨Transfer.pairStreams sent, received.map .ofSeed, choices⟩ key passive)
      (Multiplier.Guarded.process l) jobs
  | openings _ p key calls =>
    Session.calls (pure (MacCheck.ofKey key)) (MacCheck.Call.guarded p) calls
  | sacrifices _ p amortize checker calls => do
      let c ← Session.check (Sacrifice.Setting.of p amortize)
      Session.calls (pure ⟨checker, 0⟩) (Sacrifice.Call.guarded c) calls

/-- The sizes of a workload fit: memory has room for what every call works on, and a word can
count the calls and the items. -/
def Fits : Workload → Prop
  | send _ _ _ _ sizes => sizes.length < 2 ^ 64 ∧ ∀ n ∈ sizes, Transfer.HasRoom n
  | receive _ _ _ choices => choices.length < 2 ^ 64 ∧ ∀ v ∈ choices, Transfer.HasRoom v.length
  | evaluateInputs r _ _ _ vectors =>
    vectors.length < 2 ^ 64 ∧ ∀ xs ∈ vectors, xs.length * bytes r.Carrier < memoryLimit
  | evaluateKey r _ _ _ _ sizes =>
    sizes.length < 2 ^ 64 ∧ ∀ n ∈ sizes, n * bytes r.Carrier < memoryLimit
  | process d _ _ _ _ _ _ jobs =>
    jobs.length < 2 ^ 64 ∧ ∀ job ∈ jobs, job.HasRoom d.tag.Carrier
  | openings .. => True
  | sacrifices _ _ amortize _ calls =>
    amortize < 2 ^ 64 ∧ (∀ call ∈ calls, call.size < memoryLimit) ∧
      (calls.map Sacrifice.Call.size).sum < 2 ^ 64

/-- Calls of which each takes the counters of the object one batch further. -/
theorem guards_counted {σ α β τ : Type} {P : Nat → σ → Prop} {Q : β → Prop} {t : τ}
    {new new' : Session τ σ} {g p : β → Session σ α} {inputs : List β} {n : Nat}
    (hnew : Guards t new new' (fun s _ => P n s) fun _ => True)
    (hcall : ∀ k x s, k < 2 ^ 64 → Q x → P k s → Leaves s (g x) (p x) (P (k + 1)))
    (hcount : n + inputs.length ≤ 2 ^ 64) (hroom : ∀ x ∈ inputs, Q x) :
    Guards t (Session.calls new g inputs) (Session.calls new' p inputs)
      (fun outcomes _ => outcomes.length = inputs.length ∧ ∀ o ∈ outcomes, o ≠ .error .fault)
      fun _ => True := by
  refine .calls (I := fun rest s => ∃ k, P k s ∧ k + rest.length ≤ 2 ^ 64 ∧ ∀ x ∈ rest, Q x)
    (hnew.mono (fun s _ hs => ⟨n, hs, hcount, hroom⟩) fun _ h => h) ?_
  intro x rest s hs
  obtain ⟨k, hk, hcount, hroom⟩ := hs
  rw [length_cons] at hcount
  have hrest : ∀ y ∈ rest, Q y := fun y hy => hroom y (mem_cons_of_mem x hy)
  refine (hcall k x s (by omega) (hroom x mem_cons_self) hk).mono fun u hu => ?_
  exact ⟨k + 1, hu, by omega, hrest⟩

/-- Checks by sacrifice, as many as a word can count the items of. -/
theorem guards_sacrifices {f : FieldName} {t : Unit} {c : Sacrifice.Setting}
    {checker : MacCheck f.Carrier} {calls : List (Sacrifice.Call f.Carrier)}
    (hc : 0 < c.amortize) (hword : c.amortize < 2 ^ 64)
    (hroom : ∀ call ∈ calls, call.size < memoryLimit)
    (hsum : (calls.map Sacrifice.Call.size).sum < 2 ^ 64) :
    Guards t (Session.calls (pure ⟨checker, 0⟩) (Sacrifice.Call.guarded c) calls)
      (Session.calls (pure ⟨checker, 0⟩) (Sacrifice.Call.run c) calls)
      (fun outcomes _ => outcomes.length = calls.length ∧ ∀ o ∈ outcomes, o ≠ .error .fault)
      fun _ => True := by
  refine .calls (I := fun rest s => s.batch + (rest.map Sacrifice.Call.size).sum < 2 ^ 64 ∧
    ∀ call ∈ rest, call.size < memoryLimit) (.pure ⟨by rwa [Nat.zero_add], hroom⟩) ?_
  intro call rest s hs
  obtain ⟨hsum, hroom⟩ := hs
  rw [map_cons, sum_cons] at hsum
  have hrest : ∀ y ∈ rest, y.size < memoryLimit := fun y hy => hroom y (mem_cons_of_mem call hy)
  refine (Sacrifice.guards_call hc hword (hroom call mem_cons_self) (by omega)).mono
    fun u hu => ?_
  exact ⟨by omega, hrest⟩

theorem counters_ofSeed {keys : List Block} :
    ∀ stream ∈ keys.map Keystream.ofSeed, stream.generator.counter = 0 := by
  intro stream hstream
  obtain ⟨key, -, rfl⟩ := mem_map.mp hstream
  rfl

theorem counters_pairStreams {keys : List (Block × Block)} :
    ∀ p ∈ Transfer.pairStreams keys, p.1.generator.counter = 0 ∧ p.2.generator.counter = 0 := by
  intro p hp
  obtain ⟨key, -, rfl⟩ := mem_map.mp hp
  exact ⟨rfl, rfl⟩

/-- **No peer can cause a fault.**  Whatever messages the peers deliver, and wherever they
close their links, every call of a workload that fits comes to a result or to an error, and
does so without an index past an end, a word that overflows or a shift past a width. -/
theorem never_faults (w : Workload) (h : w.Fits) :
    Guards () w.guarded w.plain
      (fun outcomes _ => outcomes.length = w.count ∧ ∀ o ∈ outcomes, o ≠ .error .fault)
      fun _ => True := by
  -- the counters of a new object stand at zero, those of a multiplier may stand at one
  have hzero : ∀ {m : Nat}, m < 2 ^ 64 → 0 + m ≤ 2 ^ 64 := by omega
  have hone : ∀ {m : Nat}, m < 2 ^ 64 → 1 + m ≤ 2 ^ 64 := by omega
  cases w with
  | send l delta keys passive sizes =>
    refine guards_counted (P := Transfer.Sender.Within) (.check (fun s hs => ?_) trivial) ?_
      (hzero h.1) h.2
    · exact Transfer.Sender.within_of_ofSeeds counters_ofSeed hs
    · intro k n s hk hn hs
      exact (Transfer.Sender.guards_send hn hk hs).mono (fun _ _ h => h.2) fun _ h => h
  | receive l keys passive choices =>
    refine guards_counted (P := Transfer.Receiver.Within) (.check (fun r hr => ?_) trivial) ?_
      (hzero h.1) h.2
    · exact Transfer.Receiver.within_of_ofSeeds counters_pairStreams hr
    · intro k v r hk hv hr
      exact (Transfer.Receiver.guards_receive hv hk hr).mono (fun _ _ h => h.2) fun _ h => h
  | evaluateInputs r l keys passive vectors =>
    refine guards_counted (P := InputHolder.Within r.Carrier) (.check (fun s hs => ?_) trivial) ?_
      (hzero h.1) h.2
    · exact InputHolder.within_of_ofSeeds hs
    · intro k xs s hk hxs hs
      exact InputHolder.guards_evaluate hxs hk hs
  | evaluateKey r l key keys passive sizes =>
    refine guards_counted (P := KeyHolder.Within) (.check (fun s hs => ?_) trivial) ?_
      (hzero h.1) h.2
    · exact KeyHolder.within_of_ofSeeds hs
    · intro k n s hk hn hs
      exact KeyHolder.guards_evaluate hn hk hs
  | process d l sent received choices key passive jobs =>
    refine guards_counted (P := fun k => Multiplier.Within k k k)
      (Multiplier.guards_setup counters_pairStreams counters_ofSeed) ?_ (hone h.1) h.2
    intro k job m hk hjob hm
    exact Multiplier.guards_process hjob hk hm
  | openings d p key calls =>
    exact .calls (I := fun _ _ => True) (.pure trivial) fun call _ _ _ =>
      MacCheck.guards_call call
  | sacrifices f p amortize checker calls =>
    obtain ⟨hword, hroom, hsum⟩ := h
    refine .bind (.check (fun c hc => ?_) trivial)
    rw [Sacrifice.Setting.of] at hc
    split at hc
    · cases hc
    · cases hc
      exact guards_sacrifices (Nat.pos_of_ne_zero ‹_›) hword hroom hsum

/-- A multiplier with a key gets jobs of all kinds, among them one with lists of different
lengths. -/
def sampleJobs : Workload :=
  .process .words ⟨1, 0, 1⟩ ((range 128).map fun i => (.ofNat i, .ofNat (i + 128)))
    ((range 128).map .ofNat) (.ofBits (replicate 128 true)) (some 1) false
    [.triple [1, 1] [1], .square [1], .input 0 [1], .authenticate [1, 0]]

/-- Seven triples, two pairs at a time, then a bit without a helper and a square of zero. -/
def sampleTriples : Workload :=
  .sacrifices .mersenne61 ⟨2, 3⟩ 2 (.ofKey 1)
    [.triples (replicate 7 ⟨0, 0, 0⟩), .bits [0] [], .bitsFromSquares [(0, 0)]]

theorem never_faults_sample :
    (sampleJobs.Fits ∧ Guards () sampleJobs.guarded sampleJobs.plain
      (fun outcomes _ => outcomes.length = 4 ∧ ∀ o ∈ outcomes, o ≠ .error .fault) fun _ => True) ∧
    sampleTriples.Fits ∧ Guards () sampleTriples.guarded sampleTriples.plain
      (fun outcomes _ => outcomes.length = 3 ∧ ∀ o ∈ outcomes, o ≠ .error .fault)
      fun _ => True := by
  have hjobs : sampleJobs.Fits := by
    refine ⟨by decide, fun job hjob => ?_⟩
    simp only [mem_cons, not_mem_nil, or_false] at hjob
    rcases hjob with rfl | rfl | rfl | rfl
    · exact (by decide : Transfer.HasRoom (2 * bits Word64))
    · exact (by decide : Transfer.HasRoom (1 * bits Word64))
    · exact (by decide : 1 * bytes Word128 < memoryLimit)
    · exact (by decide : 2 * bytes Word128 < memoryLimit)
  have htriples : sampleTriples.Fits := by
    refine ⟨by decide, fun call hcall => ?_, by decide⟩
    simp only [mem_cons, not_mem_nil, or_false] at hcall
    rcases hcall with rfl | rfl | rfl
    · exact (by decide : 7 < memoryLimit)
    · exact (by decide : 1 < memoryLimit)
    · exact (by decide : 1 < memoryLimit)
  exact ⟨⟨hjobs, never_faults sampleJobs hjobs⟩, htriples, never_faults sampleTriples htriples⟩

end Workload

end Beaver
