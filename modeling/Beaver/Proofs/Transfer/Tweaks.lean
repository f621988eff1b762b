import Mathlib
import Beaver.Proofs.Ring.Reduction
import Beaver.Proofs.Runs
import Beaver.Proofs.Transfer.Calls

/-!
# The tweaks of a session

The phases of an end are called one by one, in any order, over links on which anything may
happen, and the caller goes on whatever becomes of a call.  A `Run` keeps a log of the calls.

Where a batch stands shows in its account alone (`Account.Sound`), so the log of a run tells
which tweaks were used: the `n` from the counter on for a batch of `n` blocks, after which the
counter has moved by the height of the batch (`Trace.tweaks_eq`).  These intervals follow each
other, and they depend only on the sizes of the batches, not on the end.
-/

namespace Beaver.Transfer

open List

/-- A call at one end. -/
abbrev Entry (side : Side) := Session.Entry side.State Request (Option (List side.Output))

namespace Entry

variable {side : Side} (e : Entry side)

/-- A call was made, over any link. -/
def Made : Prop :=
  ∃ l, Session.Ends (side.run l e.call) e.before e.events e.result e.after

/-- The blocks that a call has given. -/
def blocks? : Option (List side.Output) := e.result.toOption.join

/-- How many they are. -/
def size? : Option Nat := e.blocks?.map length

/-- The tweaks that they were hashed with. -/
def tweaks? : Option (List Nat) :=
  e.blocks?.map fun blocks => range' (side.account e.before).counter blocks.length

/-- A call was taken if it has ended its phase. -/
def taken : Bool := decide ((side.account e.after).phase ≠ (side.account e.before).phase)

/-- A call was refused: it has failed, and that is all. -/
def Refused : Prop := (∃ f, e.result = .error (.error f)) ∧ e.events = [] ∧ e.after = e.before

end Entry

/-- Calls at one end, one by one and in any order, with all that was done in them. -/
abbrev Run (side : Side) (s : side.State) : List (Entry side) → side.State → Prop :=
  Session.Run Entry.Made s

section Logs

variable {side : Side} (log : List (Entry side))

/-- The phase that is due: every call that was taken has led to the next one. -/
def due : Phase := Phase.next^[(log.filter Entry.taken).length] .expand

/-- The sizes of the batches that were completed. -/
def completed : List Nat := log.filterMap Entry.size?

/-- The tweaks of the completed batches. -/
def tweaks : List (List Nat) := log.filterMap Entry.tweaks?

end Logs

/-- The tweaks of batches of given sizes, from a first one on.  The padding of a batch is
skipped. -/
def spans (first : Nat) : List Nat → List (List Nat)
  | [] => []
  | n :: sizes => range' first n :: spans (first + squaresFor n * 128) sizes

section Spans

variable {first n : Nat} {sizes : List Nat}

theorem spans_concat : spans first (sizes ++ [n]) = spans first sizes ++
    [range' (first + (sizes.map fun k => squaresFor k * 128).sum) n] := by
  induction sizes generalizing first with
  | nil => rfl
  | cons k sizes ih =>
    rw [cons_append, spans, ih, spans, map_cons, sum_cons, Nat.add_assoc]
    rfl

theorem le_of_mem_spans {used : List Nat} (h : used ∈ spans first sizes) :
    ∀ i ∈ used, first ≤ i ∧ i < first + (sizes.map fun k => squaresFor k * 128).sum := by
  induction sizes generalizing first with
  | nil => cases h
  | cons k sizes ih =>
    intro i hi
    have hle := length_le_height k
    rw [map_cons, sum_cons]
    rcases mem_cons.mp h with rfl | hlater
    · have hmem := mem_range'_1.mp hi
      omega
    · have hbounds := ih hlater i hi
      omega

/-- Each interval comes after the one before. -/
theorem pairwise_spans : (spans first sizes).Pairwise fun a b => ∀ i ∈ a, ∀ j ∈ b, i < j := by
  induction sizes generalizing first with
  | nil => exact .nil
  | cons k sizes ih =>
    refine .cons ?_ ih
    intro later hlater i hi j hj
    have hle := length_le_height k
    have hmem := mem_range'_1.mp hi
    have hbounds := le_of_mem_spans hlater j hj
    omega

/-- No tweak is in two of the intervals. -/
theorem nodup_spans : (spans first sizes).flatten.Nodup := by
  refine nodup_flatten.mpr ⟨?_, pairwise_spans.imp ?_⟩
  · induction sizes generalizing first with
    | nil =>
      intro used h
      cases h
    | cons k sizes ih =>
      intro used h
      rcases mem_cons.mp h with rfl | hlater
      · exact nodup_range'
      · exact ih used hlater
  · intro a b hlt i hi hj
    exact Nat.lt_irrefl i (hlt i hi i hj)

/-- Tweaks that fit a block are different blocks. -/
theorem nodup_ofNat_spans (h : first + (sizes.map fun k => squaresFor k * 128).sum ≤ 2 ^ 128) :
    ((spans first sizes).flatten.map Block.ofNat).Nodup := by
  have hlt : ∀ i ∈ (spans first sizes).flatten, i < 2 ^ 128 := by
    intro i hi
    obtain ⟨used, hused, hmem⟩ := mem_flatten.mp hi
    exact Nat.lt_of_lt_of_le (le_of_mem_spans hused i hmem).2 h
  refine Nodup.map_on ?_ nodup_spans
  intro i hi j hj hij
  rw [← Block.toNat_ofNat (hlt i hi), hij, Block.toNat_ofNat (hlt j hj)]

end Spans

namespace Account

variable {a b : Account} {c : Request} {o : Except Failure (Option (List Nat))}

/-- A step ends the phase of its call. -/
theorem Step.phase_eq (h : a.Step c o b) : a.phase = c.phase ∧ b.phase = c.phase.next := by
  cases h <;> exact ⟨by assumption, rfl⟩

/-- Only a step that gives blocks moves the counter. -/
theorem Step.released (h : a.Step c o b) :
    (o.toOption.join = none ∧ b.counter = a.counter) ∨
      (c = .hash ∧ a.phase = .hash ∧ a.size ≤ a.height ∧
        o = .ok (some (range' a.counter a.size)) ∧
        b = ⟨.expand, a.counter + a.height, a.size, 0⟩) := by
  cases h with
  | begun | noRoom | transposed | lost => exact Or.inl ⟨rfl, rfl⟩
  | @correlated _ o | @checked o => cases o <;> exact Or.inl ⟨rfl, rfl⟩
  | hashed hphase hsize => exact Or.inr ⟨rfl, hphase, hsize, rfl, rfl⟩

/-- Between the phases of a batch, the matrix has the height for its size, if memory has room for
it.  Before a batch there is none. -/
def Sound (a : Account) : Prop :=
  a.height = if a.phase ≠ .expand ∧ HasRoom a.size then squaresFor a.size * 128 else 0

theorem Sound.step (ha : a.Sound) (h : a.Step c o b) : b.Sound := by
  unfold Sound at ha ⊢
  cases h with
  | begun hphase hroom => simp [hroom]
  | noRoom hphase hroom => simpa [hphase, hroom] using ha
  | correlated hphase | transposed hphase | checked hphase => simpa [hphase] using ha
  | hashed => simp
  | lost hphase hsize =>
    by_cases hroom : HasRoom a.size
    · have hheight : a.height = squaresFor a.size * 128 := by simpa [hphase, hroom] using ha
      have hle := length_le_height a.size
      omega
    · simpa [hroom] using ha

/-- A batch that can be hashed has been given room. -/
theorem Sound.height_eq (ha : a.Sound) (hphase : a.phase = .hash) (hsize : a.size ≤ a.height) :
    a.height = squaresFor a.size * 128 := by
  by_cases hroom : HasRoom a.size
  · simpa [Sound, hphase, hroom] using ha
  · have hzero : a.height = 0 := by simpa [Sound, hroom] using ha
    have hempty : a.size = 0 := by omega
    exact absurd (show HasRoom 0 by decide) (hempty ▸ hroom)

end Account

namespace Side

variable {side : Side} {s : side.State}

theorem length_outputs (first : Nat) {n : Nat} (hn : n ≤ (side.account s).height) :
    (side.outputs s (range' first n)).length = n := by
  have hrows : (side.rows s).length = (side.account s).height := by
    cases side <;> exact BitMatrix.length_rows _
  rw [outputs, length_map, length_zip, length_range', hrows]
  exact Nat.min_eq_left hn

end Side

theorem Phase.next_ne (p : Phase) : p.next ≠ p := by
  cases p <;> decide

namespace Entry

variable {side : Side} {e : Entry side}

/-- What became of a call is one of the answers that there are. -/
def Answered (e : Entry side) : Prop :=
  side.Answers e.before e.call e.events e.result e.after

/-- A call was refused, or its step ended the phase. -/
theorem Answered.cases (h : e.Answered) :
    (¬ side.Takes e.before e.call ∧ e.Refused ∧ e.taken = false ∧ e.blocks? = none) ∨
    (side.Takes e.before e.call ∧ e.taken = true ∧
      ∃ o, (side.account e.before).Step e.call o (side.account e.after) ∧
        e.result = o.map (Option.map (side.outputs e.before))) := by
  obtain ⟨s, c, es, r, t⟩ := e
  rw [Answered] at h
  cases h with
  | refused f h => exact Or.inl ⟨h, ⟨⟨f, rfl⟩, rfl, rfl⟩, by simp [taken], rfl⟩
  | taken o h hseeded hstep hr =>
    refine Or.inr ⟨h, ?_, o, hstep, hr⟩
    obtain ⟨hnow, hnext⟩ := hstep.phase_eq
    simpa [Entry.taken, hnow, hnext] using c.phase.next_ne

theorem blocks?_eq {o : Except Failure (Option (List Nat))}
    (hr : e.result = o.map (Option.map (side.outputs e.before))) :
    e.blocks? = o.toOption.join.map (side.outputs e.before) := by
  rw [blocks?, hr]
  rcases o with f | tweaks
  · rfl
  · cases tweaks <;> rfl

/-- **When a call gives blocks**: it has hashed the rows of its batch with the tweaks from the
counter on, and the counter has passed the whole batch. -/
theorem Answered.released (h : e.Answered) :
    (e.blocks? = none ∧ (side.account e.after).counter = (side.account e.before).counter) ∨
    (e.call = .hash ∧ (side.account e.before).phase = .hash ∧
      (side.account e.before).size ≤ (side.account e.before).height ∧
      e.blocks? = some (side.outputs e.before (range' (side.account e.before).counter
        (side.account e.before).size)) ∧
      side.account e.after = ⟨.expand, (side.account e.before).counter
        + (side.account e.before).height, (side.account e.before).size, 0⟩) := by
  rcases h.cases with ⟨-, ⟨-, -, hsame⟩, -, hnone⟩ | ⟨-, -, o, hstep, hr⟩
  · exact Or.inl ⟨hnone, by rw [hsame]⟩
  · rcases hstep.released with ⟨hnone, hcounter⟩ | ⟨hcall, hphase, hsize, rfl, hafter⟩
    · exact Or.inl ⟨by rw [blocks?_eq hr, hnone]; rfl, hcounter⟩
    · exact Or.inr ⟨hcall, hphase, hsize, blocks?_eq hr, hafter⟩

theorem Answered.of_blocks (h : e.Answered) {blocks : List side.Output}
    (hblocks : e.blocks? = some blocks) :
    e.call = .hash ∧ (side.account e.before).phase = .hash ∧
      (side.account e.after).phase = .expand ∧ blocks.length = (side.account e.before).size ∧
      ∃ used, e.tweaks? = some used ∧ blocks = side.outputs e.before used := by
  rcases h.released with ⟨hnone, -⟩ | ⟨hcall, hphase, hsize, hsome, hafter⟩
  · rw [hnone] at hblocks
    cases hblocks
  · rw [hsome] at hblocks
    cases hblocks
    have hlength := Side.length_outputs (side.account e.before).counter hsize
    refine ⟨hcall, hphase, by rw [hafter], hlength, _, ?_, rfl⟩
    rw [tweaks?, hsome, Option.map_some, hlength]

end Entry

section Traces

variable {side : Side} {s t : side.State} {log log' : List (Entry side)} {e : Entry side}

/-- Calls one by one, each of them answered. -/
abbrev Trace (s : side.State) : List (Entry side) → side.State → Prop :=
  Session.Run Entry.Answered s

theorem trace_of_run (h : Run side s log t) (hs : side.Seeded s)
    (hfits : ∀ e ∈ log, e.call.Fits) : Trace s log t ∧ side.Seeded t := by
  induction h with
  | nil => exact ⟨.nil, hs⟩
  | @snoc log e h he ih =>
    obtain ⟨htrace, hseeded⟩ := ih fun e' he' => hfits e' (mem_append_left _ he')
    obtain ⟨l, hends⟩ := he
    have hanswered : Entry.Answered e := Side.ends_run hseeded (hfits e (by simp)) hends
    refine ⟨.snoc htrace hanswered, ?_⟩
    obtain ⟨s, c, es, r, t⟩ := e
    cases hanswered with
    | refused => exact hseeded
    | taken _ _ hseeded => exact hseeded

namespace Trace

/-- The log tells which phase is due. -/
theorem phase_eq (h : Trace s log t) (hs : (side.account s).phase = .expand) :
    (side.account t).phase = due log := by
  induction h with
  | nil => exact hs
  | @snoc log e h he ih =>
    rw [due, filter_append, length_append]
    rcases he.cases with ⟨-, ⟨-, -, hsame⟩, htaken, -⟩ | ⟨-, htaken, o, hstep, -⟩
    · rw [filter_cons_of_neg (by simp [htaken]), hsame]
      exact ih
    · obtain ⟨hnow, hnext⟩ := hstep.phase_eq
      rw [filter_cons_of_pos htaken, filter_nil, length_singleton,
        Function.iterate_succ_apply', hnext, ← hnow, ih]
      rfl

theorem sound (h : Trace s log t) (hs : (side.account s).Sound) : (side.account t).Sound := by
  refine h.keeps (P := fun s => (side.account s).Sound) hs fun e he hbefore => ?_
  rcases he.cases with ⟨-, ⟨-, -, hsame⟩, -⟩ | ⟨-, -, o, hstep, -⟩
  · rwa [hsame]
  · exact hbefore.step hstep

/-- **The tweaks of a run depend only on the sizes of its batches.** -/
theorem tweaks_eq (h : Trace s log t) (hs : (side.account s).Sound) :
    tweaks log = spans (side.account s).counter (completed log) ∧
      (side.account t).counter = (side.account s).counter
        + ((completed log).map fun n => squaresFor n * 128).sum := by
  induction h with
  | nil => exact ⟨rfl, rfl⟩
  | @snoc log e h he ih =>
    obtain ⟨htweaks, hcounter⟩ := ih
    rw [tweaks, completed, filterMap_append, filterMap_append, ← tweaks, ← completed]
    rcases he.released with ⟨hnone, hsame⟩ | ⟨-, hphase, hsize, hblocks, hafter⟩
    · rw [filterMap_cons_none (by rw [Entry.tweaks?, hnone]; rfl),
        filterMap_cons_none (by rw [Entry.size?, hnone]; rfl), filterMap_nil,
        filterMap_nil, append_nil, append_nil, hsame]
      exact ⟨htweaks, hcounter⟩
    · have hheight := (sound h hs).height_eq hphase hsize
      have hlength := Side.length_outputs (side.account e.before).counter hsize
      have hused : Entry.tweaks? e = some (range' (side.account e.before).counter
          (side.account e.before).size) := by
        rw [Entry.tweaks?, hblocks, Option.map_some, hlength]
      have hdone : Entry.size? e = some (side.account e.before).size := by
        rw [Entry.size?, hblocks, Option.map_some, hlength]
      rw [filterMap_cons_some hused, filterMap_cons_some hdone, filterMap_nil,
        filterMap_nil, spans_concat, htweaks, ← hcounter, map_append, sum_append,
        ← Nat.add_assoc, ← hcounter, hafter, hheight]
      exact ⟨rfl, rfl⟩

end Trace

/-- How far the calls of a batch of size `n` have come. -/
inductive Progress : Phase → Nat → List Request → Prop where
  | idle {n : Nat} : Progress .expand n []
  | expanded {n : Nat} : Progress .correlate n [.expand n]
  | correlated {n : Nat} {choices : BitString} :
      Progress .transpose n [.expand n, .correlate choices]
  | transposed {n : Nat} {choices : BitString} :
      Progress .check n [.expand n, .correlate choices, .transpose]
  | checked {n : Nat} {choices : BitString} :
      Progress .hash n [.expand n, .correlate choices, .transpose, .check]

/-- A step that gives no blocks is the next of its batch, as long as memory has room. -/
theorem Progress.step {a b : Account} {c : Request} {o : Except Failure (Option (List Nat))}
    {calls : List Request} (h : Progress a.phase a.size calls) (ha : a.Sound)
    (hroom : a.phase ≠ .expand → HasRoom a.size) (hstep : a.Step c o b)
    (hnone : o.toOption.join = none) (hfault : ∀ n, c = .expand n → o ≠ .error .fault) :
    Progress b.phase b.size (calls ++ [c]) ∧ (b.phase ≠ .expand → HasRoom b.size) := by
  cases hstep with
  | begun hphase hn =>
    rw [hphase] at h
    cases h
    exact ⟨.expanded, fun _ => hn⟩
  | noRoom => exact absurd rfl (hfault _ rfl)
  | correlated hphase =>
    rw [hphase] at h
    cases h
    exact ⟨.correlated, fun _ => hroom (by rw [hphase]; decide)⟩
  | transposed hphase =>
    rw [hphase] at h
    cases h
    exact ⟨.transposed, fun _ => hroom (by rw [hphase]; decide)⟩
  | checked hphase =>
    rw [hphase] at h
    cases h
    exact ⟨.checked, fun _ => hroom (by rw [hphase]; decide)⟩
  | hashed => cases hnone
  | lost hphase hsize =>
    have hactive : a.phase ≠ .expand := by rw [hphase]; decide
    have hheight : a.height = squaresFor a.size * 128 := by
      rw [ha, if_pos ⟨hactive, hroom hactive⟩]
    have hle := length_le_height a.size
    omega

/-- The calls of a batch that were taken are the next ones, in turn. -/
theorem Trace.progress (h : Trace s log t) (hphase : (side.account s).phase = .expand)
    (hs : (side.account s).Sound) (hnone : ∀ e ∈ log, e.blocks? = none)
    (hfault : ∀ e ∈ log, ∀ n, e.call = .expand n → e.result ≠ .error .fault) :
    Progress (side.account t).phase (side.account t).size
        ((log.filter Entry.taken).map (·.call)) ∧
      ((side.account t).phase ≠ .expand → HasRoom (side.account t).size) := by
  induction h with
  | nil =>
    rw [hphase]
    exact ⟨.idle, fun hne => absurd rfl hne⟩
  | @snoc log e h he ih =>
    have hmem : ∀ e' ∈ log, e' ∈ log ++ [e] := fun _ => mem_append_left _
    have hlast : e ∈ log ++ [e] := by simp
    obtain ⟨hprogress, hroom⟩ := ih (fun e' he' => hnone e' (hmem e' he'))
      fun e' he' => hfault e' (hmem e' he')
    rw [filter_append, map_append]
    rcases he.cases with ⟨-, ⟨-, -, hsame⟩, htaken, -⟩ | ⟨-, htaken, o, hstep, hr⟩
    · rw [filter_cons_of_neg (by simp [htaken]), filter_nil, map_nil,
        append_nil, hsame]
      exact ⟨hprogress, hroom⟩
    · rw [filter_cons_of_pos htaken, filter_nil]
      refine hprogress.step (Trace.sound h hs) hroom hstep ?_ ?_
      · have hquiet := hnone e hlast
        rwa [Entry.blocks?_eq hr, Option.map_eq_none_iff] at hquiet
      · intro n hn ho
        refine hfault e hlast n hn ?_
        rw [hr, ho]
        rfl

/-- A batch begins after the blocks of the one before. -/
theorem Trace.phase_of_getLast? (h : Trace s log t) (hs : (side.account s).phase = .expand)
    (hlast : ∀ e ∈ log.getLast?, e.blocks?.isSome = true) : (side.account t).phase = .expand := by
  cases h with
  | nil => exact hs
  | @snoc log e h he =>
    obtain ⟨blocks, hblocks⟩ := Option.isSome_iff_exists.mp (hlast e (by simp))
    exact (he.of_blocks hblocks).2.2.1

/-- **The calls of a batch**, from its beginning to its blocks. -/
theorem Trace.batch_eq (h : Trace s log e.before) (he : e.Answered)
    (hphase : (side.account s).phase = .expand) (hs : (side.account s).Sound)
    (hnone : ∀ e ∈ log, e.blocks? = none)
    (hfault : ∀ e ∈ log, ∀ n, e.call = .expand n → e.result ≠ .error .fault)
    {blocks : List side.Output} (hblocks : e.blocks? = some blocks) :
    ∃ choices, (log.filter Entry.taken).map (·.call) =
      [.expand blocks.length, .correlate choices, .transpose, .check] := by
  obtain ⟨hprogress, -⟩ := h.progress hphase hs hnone hfault
  obtain ⟨-, hhash, -, hlength, -⟩ := he.of_blocks hblocks
  rw [hhash, ← hlength] at hprogress
  generalize (log.filter Entry.taken).map (·.call) = calls at hprogress
  cases hprogress with
  | checked => exact ⟨_, rfl⟩

/-- A call is taken exactly if it is due and suits the batch, and else refused. -/
theorem Trace.taken_iff (h : Trace s log e.before) (he : e.Answered)
    (hs : (side.account s).phase = .expand) :
    (e.call.phase ≠ due log → e.Refused) ∧
      (e.taken = true ↔ e.call.phase = due log ∧ side.Suits e.before e.call) := by
  have htakes : side.Takes e.before e.call ↔
      e.call.phase = due log ∧ side.Suits e.before e.call := by
    rw [Side.Takes, h.phase_eq hs, eq_comm]
  rcases he.cases with ⟨hnot, hrefused, htaken, -⟩ | ⟨hyes, htaken, -⟩
  · exact ⟨fun _ => hrefused, by simpa [htaken] using htakes.not.mp hnot⟩
  · obtain ⟨hcall, hsuits⟩ := htakes.mp hyes
    exact ⟨fun hne => absurd hcall hne, by simp [htaken, hcall, hsuits]⟩

/-- A new end is at rest, with nothing counted. -/
theorem Side.Fresh.account_eq (hs : side.Fresh s) : (side.account s).phase = .expand ∧
    (side.account s).counter = 0 ∧ (side.account s).Sound := by
  rw [hs.seeded.2]
  exact ⟨rfl, rfl, rfl⟩

/-- **No tweak is used twice in a session.**  Let the phases of a new sender or receiver be called
in any order, over any links, whatever becomes of each call.

Blocks come from hashing only, with an interval of tweaks, one a row, and the intervals follow
each other.  As long as the counter fits a block, all tweaks are different blocks.

Since the blocks before, one call each of the four other phases was taken, in turn and for as many
transfers as there are blocks, unless memory had no room for a batch that was begun in between.  A
call that is not due is refused.  One that is due is taken, unless it brings the wrong number of
choice bits.

Two ends that have completed batches of the same sizes have used the same tweaks. -/
theorem no_tweak_reused (hs : side.Fresh s) (h : Run side s log t)
    (hfits : ∀ e ∈ log, e.call.Fits) :
    (∀ e ∈ log, ∀ blocks, e.blocks? = some blocks → e.call = .hash ∧
      ∃ used, e.tweaks? = some used ∧ blocks = side.outputs e.before used) ∧
    (tweaks log).Pairwise (fun a b => ∀ i ∈ a, ∀ j ∈ b, i < j) ∧
    ((side.account t).counter ≤ 2 ^ 128 → ((tweaks log).flatten.map Block.ofNat).Nodup) ∧
    (∀ (earlier batch later : List (Entry side)) (e : Entry side) (blocks : List side.Output),
      log = earlier ++ batch ++ e :: later →
      (∀ e' ∈ earlier.getLast?, e'.blocks?.isSome = true) → (∀ e' ∈ batch, e'.blocks? = none) →
      (∀ e' ∈ batch, ∀ n, e'.call = .expand n → e'.result ≠ .error .fault) →
      e.blocks? = some blocks →
      ∃ choices, (batch.filter Entry.taken).map (·.call) =
        [.expand blocks.length, .correlate choices, .transpose, .check]) ∧
    (∀ (earlier later : List (Entry side)) (e : Entry side), log = earlier ++ e :: later →
      (e.call.phase ≠ due earlier → e.Refused) ∧
      (e.taken = true ↔ e.call.phase = due earlier ∧ side.Suits e.before e.call)) ∧
    (∀ (other : Side) (s' t' : other.State) (log' : List (Entry other)), other.Fresh s' →
      Run other s' log' t' → (∀ e ∈ log', e.call.Fits) → completed log' = completed log →
      tweaks log' = tweaks log) := by
  obtain ⟨hphase, hcounter, hsound⟩ := hs.account_eq
  obtain ⟨htrace, -⟩ := trace_of_run h hs.seeded.1 hfits
  obtain ⟨htweaks, hend⟩ := htrace.tweaks_eq hsound
  rw [hcounter] at htweaks hend
  refine ⟨?_, ?_, ?_, ?_, ?_, ?_⟩
  · intro e he blocks hblocks
    obtain ⟨earlier, later, rfl⟩ := append_of_mem he
    obtain ⟨hcall, -, -, -, hused⟩ := htrace.of_append_cons.2.of_blocks hblocks
    exact ⟨hcall, hused⟩
  · rw [htweaks]
    exact pairwise_spans
  · intro hbound
    rw [htweaks]
    exact nodup_ofNat_spans (hend ▸ hbound)
  · intro earlier batch later e blocks hlog hlast hnone hfault hblocks
    subst hlog
    obtain ⟨hbefore, he⟩ := htrace.of_append_cons
    obtain ⟨u, hearlier, hbatch⟩ := hbefore.of_append
    exact Trace.batch_eq hbatch he (Trace.phase_of_getLast? hearlier hphase hlast)
      (Trace.sound hearlier hsound) hnone hfault hblocks
  · intro earlier later e hlog
    subst hlog
    obtain ⟨hbefore, he⟩ := htrace.of_append_cons
    exact Trace.taken_iff hbefore he hphase
  · intro other s' t' log' hs' h' hfits' hsizes
    obtain ⟨-, hcounter', hsound'⟩ := hs'.account_eq
    obtain ⟨htrace', -⟩ := trace_of_run h' hs'.seeded.1 hfits'
    rw [(htrace'.tweaks_eq hsound').1, hcounter', hsizes, htweaks]

end Traces

/-- Over a closed link, a sender that is not passive still completes a batch. -/
theorem Sender.exists_batch (l : LinkEnd) {s : Sender} (hphase : s.phase = .expand)
    (hstreams : s.streams.length = 128) (hactive : s.passive = false) {n : Nat}
    (hroom : HasRoom n) : ∃ (log : List (Entry .sender)) (t : Sender), Run .sender s log t ∧
      (∀ e ∈ log, e.call.Fits) ∧ completed log = [n] ∧ t.phase = .expand ∧
      t.streams.length = 128 ∧ t.passive = false := by
  have hfits : (Request.expand n).Fits := by
    obtain ⟨rows, -, hrows, -⟩ := hroom.exists_blank
    exact Option.isSome_iff_exists.mpr ⟨rows, hrows⟩
  obtain ⟨s₁, s₂, s₃, s₄, t, es₂, es₄, blocks, hlength, h₁, h₂, h₃, h₄, h₅, ht⟩ :=
    exists_closed_batch l hphase hstreams hactive hroom
  have hone : ∀ {c : Request} {u v : Sender} {es r}, Session.Ends (c.toCall.run l) u es r v →
      Run .sender u [⟨u, c, es, r, v⟩] v := fun {c u v es r} h =>
    Session.Run.single (e := (⟨u, c, es, r, v⟩ : Entry .sender)) ⟨l, h⟩
  refine ⟨_, t, (hone (c := .expand n) h₁).append <| (hone (c := .correlate .empty) h₂).append <|
    (hone (c := .transpose) h₃).append <| (hone (c := .check) h₄).append (hone (c := .hash) h₅), ?_,
    congrArg (fun k => [k]) hlength, ht⟩
  intro e he
  simp only [mem_append, mem_singleton] at he
  rcases he with rfl | rfl | rfl | rfl | rfl
  · exact hfits
  all_goals exact trivial

/-- Two batches of a sender, after a call that was out of order. -/
theorem no_tweak_reused_closed : ∃ (s t : Sender) (e : Entry .sender) (log : List (Entry .sender)),
    Side.Fresh .sender s ∧ Run .sender s (e :: log) t ∧ (∀ e' ∈ e :: log, e'.call.Fits) ∧
    e.call = .hash ∧ e.Refused ∧ completed (e :: log) = [2, 1] ∧
    tweaks (e :: log) = [[0, 1], [384]] ∧
    (tweaks (e :: log)).Pairwise fun a b => ∀ i ∈ a, ∀ j ∈ b, i < j := by
  let s : Sender :=
    ⟨false, .zero, replicate 128 (Keystream.ofSeed .zero), .expand, 0, 0, .empty⟩
  have hfresh : Side.Fresh .sender s := ⟨⟨replicate 16 0, 128⟩, s.streams, false,
    Sender.ofSeeds_eq rfl length_replicate false⟩
  let e : Entry .sender := ⟨s, .hash, [], .error Sender.outOfOrder, s⟩
  have hstart : Sender.hash.start s = .done (.error Sender.outOfOrder, s) := rfl
  have hearly : Run .sender s [e] s := 
    .single (e := e) ⟨⟨1, 0, 1⟩, (Session.Ends.of_start hstart).map _⟩
  obtain ⟨log₁, t, hrun₁, hfits₁, hsizes₁, hphase, hstreams, hactive⟩ :=
    Sender.exists_batch ⟨1, 0, 1⟩ (s := s) rfl length_replicate rfl (show HasRoom 2 by decide)
  obtain ⟨log₂, u, hrun₂, hfits₂, hsizes₂, -⟩ :=
    Sender.exists_batch ⟨1, 0, 1⟩ hphase hstreams hactive (show HasRoom 1 by decide)
  have hrun : Run .sender s (e :: (log₁ ++ log₂)) u := hearly.append (hrun₁.append hrun₂)
  have hfits : ∀ e' ∈ e :: (log₁ ++ log₂), e'.call.Fits := by
    intro e' he'
    rcases mem_cons.mp he' with rfl | he'
    · exact trivial
    · exact (mem_append.mp he').elim (hfits₁ e') (hfits₂ e')
  have hsizes : completed (e :: (log₁ ++ log₂)) = [2, 1] := by
    change completed (log₁ ++ log₂) = [2, 1]
    rw [completed, filterMap_append, ← completed, ← completed, hsizes₁, hsizes₂]
    rfl
  obtain ⟨htrace, -⟩ := trace_of_run hrun hfresh.seeded.1 hfits
  have htweaks := (htrace.tweaks_eq hfresh.account_eq.2.2).1
  rw [hsizes] at htweaks
  obtain ⟨-, hincreasing, -, -, hrefused, -⟩ := no_tweak_reused hfresh hrun hfits
  exact ⟨s, u, e, log₁ ++ log₂, hfresh, hrun, hfits, rfl, (hrefused [] _ e rfl).1 (by decide),
    hsizes, htweaks, hincreasing⟩

end Beaver.Transfer
