import Mathlib
import Beaver.Proofs.Aes.Encryption
import Beaver.Proofs.BlockBits
import Beaver.Proofs.Keystream.Calls
import Beaver.Proofs.Ring.Reduction

/-!
# When the width of the buffer shows

Words come from a buffer that is refilled `width` blocks at a time, and whole blocks are encrypted
from the counter at which the refills have left off.  Between whole blocks the width cannot be
seen: two streams with the same words ahead (`Alike`) return the same words and stay so.  Where
whole blocks are read after words, they are the encryptions of the counters behind the refills,
and different counters have different encryptions.  So two widths give the same answers if and
only if, whenever whole blocks are read, as many blocks have been encrypted for the one buffer as
for the other (`answer_eq_iff`).
-/

namespace Beaver.Keystream

open List

/-- The word `i` words ahead of the counter. -/
def wordAhead (g : CounterCipher) (i : Nat) : UInt32 :=
  (Aes.encrypt g.schedule (Block.ofNat (g.counter + i / 4))).words.getD (i % 4) 0

theorem wordAhead_advance (g : CounterCipher) (n i : Nat) :
    wordAhead (g.advance n) i = wordAhead g (4 * n + i) := by
  have hdiv : (4 * n + i) / 4 = n + i / 4 := by omega
  have hmod : (4 * n + i) % 4 = i % 4 := by omega
  rw [wordAhead, wordAhead, hdiv, hmod, ← Nat.add_assoc]
  rfl

theorem words_eq_map_range (g : CounterCipher) (n : Nat) :
    g.words n = (range (4 * n)).map (wordAhead g) := by
  induction n generalizing g with
  | zero => rfl
  | succ n ih =>
    have hfirst : g.words 1 = (range 4).map (wordAhead g) := rfl
    have hsplit : 4 * (n + 1) = 4 + 4 * n := by ring
    rw [Nat.add_comm n 1, g.words_add, ih, hfirst, Nat.add_comm 1 n, hsplit, range_add,
      map_append, map_map]
    congr 2
    funext i
    exact wordAhead_advance g 1 i

/-- The word that is taken after `i` others if only words are taken. -/
def ahead (s : Keystream) (i : Nat) : UInt32 :=
  if i < s.pending.length then s.pending.getD i 0
  else wordAhead s.generator (i - s.pending.length)

/-- The words pending and those of the next counters. -/
theorem pool_eq (g : CounterCipher) (pending : List UInt32) (n : Nat) :
    pending ++ g.words n =
      (range (pending.length + 4 * n)).map (ahead ⟨g, pending⟩) := by
  rw [range_add, map_append, map_map, words_eq_map_range]
  congr 1
  · apply ext_getElem
    · simp
    · intro i hi _
      simp [ahead, hi]
  · apply map_congr_left
    intro i _
    simp [ahead]

variable {g g' : CounterCipher} {pending pending' : List UInt32} {call : Call} {s s' : Keystream}
variable {width width' blocks words : Nat}

/-- What is ahead after words were taken. -/
theorem ahead_drop {n k : Nat} (hk : k ≤ pending.length + 4 * n) (i : Nat) :
    ahead ⟨g.advance n, (pending ++ g.words n).drop k⟩ i = ahead ⟨g, pending⟩ (k + i) := by
  have hlength : ((pending ++ g.words n).drop k).length = pending.length + 4 * n - k := by
    rw [length_drop, length_append, CounterCipher.length_words]
  rw [ahead, hlength]
  split
  · next hi => simp [pool_eq, show k + i < pending.length + 4 * n by omega]
  · next hi =>
      have hindex : 4 * n + (i - (pending.length + 4 * n - k)) = k + i - pending.length := by omega
      have hpast : ¬ k + i < pending.length := by omega
      rw [wordAhead_advance, hindex, ahead, if_neg hpast]

/-- Two streams of one seed with the same words ahead. -/
structure Alike (s s' : Keystream) : Prop where
  schedule_eq : s'.generator.schedule = s.generator.schedule
  ahead_eq (i : Nat) : ahead s' i = ahead s i

/-- **The width does not show in words.**  Two streams that have the same words ahead once their
whole blocks are encrypted return the same, if the blocks are, and stay alike. -/
theorem run_alike (call : Call) (hwidth : 0 < g.width) (hwidth' : 0 < g'.width)
    (hblocks : g'.words call.blocks = g.words call.blocks)
    (h : Alike ⟨g.advance call.blocks, pending⟩ ⟨g'.advance call.blocks, pending'⟩) :
    (call.run ⟨g', pending'⟩).1 = (call.run ⟨g, pending⟩).1 ∧
      Alike (call.run ⟨g, pending⟩).2 (call.run ⟨g', pending'⟩).2 := by
  obtain ⟨r, hrun, hle, -⟩ := call.run_eq hwidth pending
  obtain ⟨r', hrun', hle', -⟩ := call.run_eq hwidth' pending'
  have htaken : ∀ (c : CounterCipher) (words : List UInt32) (n : Nat),
      call.words ≤ words.length + 4 * n →
      (words ++ c.words n).take call.words = (range call.words).map (ahead ⟨c, words⟩) := by
    intro c words n hn
    rw [pool_eq, ← map_take, take_range, Nat.min_eq_left hn]
  rw [hrun, hrun']
  constructor
  · have hahead : ahead ⟨g'.advance call.blocks, pending'⟩ =
        ahead ⟨g.advance call.blocks, pending⟩ := funext h.ahead_eq
    rw [hblocks, htaken _ _ _ hle, htaken _ _ _ hle', hahead]
  · refine ⟨h.schedule_eq, fun i => ?_⟩
    rw [← CounterCipher.advance_advance, ← CounterCipher.advance_advance, ahead_drop hle,
      ahead_drop hle', h.ahead_eq]

/-- Streams that stand at one counter, with as many words pending, stay alike when whole blocks
are read. -/
theorem Alike.advance (h : Alike ⟨g, pending⟩ ⟨g', pending'⟩) (hcounter : g'.counter = g.counter)
    (hlength : pending'.length = pending.length) (n : Nat) :
    g'.words n = g.words n ∧ Alike ⟨g.advance n, pending⟩ ⟨g'.advance n, pending'⟩ := by
  have hword : wordAhead g' = wordAhead g := by
    funext i
    have hschedule : g'.schedule = g.schedule := h.schedule_eq
    rw [wordAhead, wordAhead, hcounter, hschedule]
  have hpending : pending' = pending := by
    have hnow := pool_eq g' pending' 0
    have hthen := pool_eq g pending 0
    have hahead : ahead ⟨g', pending'⟩ = ahead ⟨g, pending⟩ := funext h.ahead_eq
    rw [hahead, hlength, ← hthen, CounterCipher.words_zero, CounterCipher.words_zero,
      append_nil, append_nil] at hnow
    exact hnow
  subst hpending
  refine ⟨by rw [words_eq_map_range, words_eq_map_range, hword], h.schedule_eq, fun i => ?_⟩
  rw [ahead, ahead, wordAhead_advance, wordAhead_advance, hword]

/-- The first block of a call is the encryption of the counter. -/
theorem take_run (hblocks : 0 < call.blocks) (hwidth : 0 < g.width) (pending : List UInt32) :
    (call.run ⟨g, pending⟩).1.take 16 =
      (Aes.encrypt g.schedule (Block.ofNat g.counter)).toBytes := by
  obtain ⟨r, hrun, -⟩ := call.run_eq hwidth pending
  have hsize := call.le_size
  obtain ⟨n, hn⟩ : ∃ n, call.blocks = 1 + n := ⟨call.blocks - 1, by omega⟩
  have hfirst : bytesOfWords (g.words 1) =
      (Aes.encrypt g.schedule (Block.ofNat g.counter)).toBytes := by
    rw [Block.toBytes_eq]
    rfl
  rw [hrun, take_take, Nat.min_eq_left (by omega)]
  conv_lhs => rw [hn, g.words_add, append_assoc, bytesOfWords_append, hfirst]
  exact take_left' (Block.length_toBytes _)

theorem counter_le_run (call : Call) (hwidth : 0 < s.generator.width) :
    (call.run s).2.generator.width = s.generator.width ∧
      s.generator.counter + call.blocks ≤ (call.run s).2.generator.counter := by
  obtain ⟨g, pending⟩ := s
  obtain ⟨r, hrun, -⟩ := call.run_eq hwidth pending
  rw [hrun]
  refine ⟨rfl, ?_⟩
  change g.counter + call.blocks ≤ g.counter + (call.blocks + g.width * r)
  omega

theorem counter_le_answer (calls : List Call) (hwidth : 0 < s.generator.width) :
    s.generator.counter ≤ (answer calls s).2.generator.counter := by
  induction calls generalizing s with
  | nil => exact Nat.le_refl _
  | cons call calls ih =>
    obtain ⟨hkept, hle⟩ := counter_le_run call hwidth
    exact (Nat.le_add_right ..).trans (hle.trans (ih (hkept ▸ hwidth)))

/-- Whenever a call reads whole blocks, after so many words as were taken before it, as many
blocks have been encrypted for a buffer of the one width as of the other. -/
def SameRefills (width width' : Nat) : Nat → List Call → Prop
  | _, [] => True
  | words, call :: calls =>
    (0 < call.blocks → refilled width words = refilled width' words) ∧
      SameRefills width width' (words + call.words) calls

instance decidableSameRefills (width width' : Nat) :
    (words : Nat) → (calls : List Call) → Decidable (SameRefills width width' words calls)
  | _, [] => .isTrue trivial
  | words, call :: calls =>
    have := decidableSameRefills width width' (words + call.words) calls
    inferInstanceAs (Decidable (_ ∧ _))

/-- Streams at different counters return different blocks. -/
theorem counter_eq_of_run_eq (hblocks : 0 < call.blocks) (hwidth : 0 < s.generator.width)
    (hwidth' : 0 < s'.generator.width) (hschedule : s'.generator.schedule = s.generator.schedule)
    (hcount : s.generator.counter < 2 ^ 128) (hcount' : s'.generator.counter < 2 ^ 128)
    (h : (call.run s').1 = (call.run s).1) : s'.generator.counter = s.generator.counter := by
  obtain ⟨g, pending⟩ := s
  obtain ⟨g', pending'⟩ := s'
  simp only at hwidth hwidth' hschedule hcount hcount' ⊢
  have hbytes := congrArg (take 16) h
  rw [take_run hblocks hwidth', take_run hblocks hwidth, hschedule] at hbytes
  have hencrypted := congrArg Block.ofBytes hbytes
  rw [Block.ofBytes_toBytes, Block.ofBytes_toBytes] at hencrypted
  have hcounter := congrArg Block.toNat (Aes.encrypt_injective _ hencrypted)
  rwa [Block.toNat_ofNat hcount', Block.toNat_ofNat hcount] at hcounter

/-- Calls before which as much was refilled return the same, and leave the streams alike. -/
theorem Alike.run (hwidth : 0 < width) (hwidth' : 0 < width') (halike : Alike s s')
    (h : Counted width blocks words s) (h' : Counted width' blocks words s')
    (hsame : 0 < call.blocks → refilled width words = refilled width' words) :
    (call.run s').1 = (call.run s).1 ∧ Alike (call.run s).2 (call.run s').2 := by
  obtain ⟨g, pending⟩ := s
  obtain ⟨g', pending'⟩ := s'
  obtain ⟨hg, hcounter, hlength⟩ := h
  obtain ⟨hg', hcounter', hlength'⟩ := h'
  simp only at hg hg' hcounter hcounter' hlength hlength'
  subst hg hg'
  suffices hbulk : g'.words call.blocks = g.words call.blocks ∧
      Alike ⟨g.advance call.blocks, pending⟩ ⟨g'.advance call.blocks, pending'⟩ from
    run_alike call hwidth hwidth' hbulk.1 hbulk.2
  rcases Nat.eq_zero_or_pos call.blocks with hzero | hpos
  · rw [hzero, CounterCipher.words_zero, CounterCipher.words_zero]
    exact ⟨rfl, halike⟩
  · have hrefilled := hsame hpos
    exact halike.advance (by omega) (by omega) call.blocks

/-- **When two widths give the same answers**, from any two streams that are alike and from which
as much was taken. -/
theorem answer_eq_iff (hwidth : 0 < width) (hwidth' : 0 < width') (calls : List Call)
    (h : Counted width blocks words s) (h' : Counted width' blocks words s') (halike : Alike s s')
    (hcount : (answer calls s).2.generator.counter ≤ 2 ^ 128)
    (hcount' : (answer calls s').2.generator.counter ≤ 2 ^ 128) :
    (answer calls s').1 = (answer calls s).1 ↔ SameRefills width width' words calls := by
  induction calls generalizing blocks words s s' with
  | nil => exact iff_of_true rfl trivial
  | cons call calls ih =>
    have hanswers : (answer (call :: calls) s').1 = (answer (call :: calls) s).1 ↔
        (call.run s').1 = (call.run s).1 ∧
          (answer calls (call.run s').2).1 = (answer calls (call.run s).2).1 :=
      cons.injEq .. ▸ Iff.rfl
    rw [hanswers, SameRefills]
    by_cases hsame : 0 < call.blocks → refilled width words = refilled width' words
    · obtain ⟨hfirst, hnext⟩ := halike.run hwidth hwidth' h h' hsame
      rw [and_iff_right hfirst, and_iff_right hsame]
      exact ih (h.run hwidth call) (h'.run hwidth' call) hnext hcount hcount'
    · refine iff_of_false (fun hequal => hsame fun hblocks => ?_)
        (fun hrefills => hsame hrefills.1)
      -- both counters are below the last ones, so equal blocks mean equal counters
      have hpositive : 0 < s.generator.width := h.width_eq ▸ hwidth
      have hpositive' : 0 < s'.generator.width := h'.width_eq ▸ hwidth'
      have hbound : ∀ {t : Keystream}, 0 < t.generator.width →
          (answer (call :: calls) t).2.generator.counter ≤ 2 ^ 128 →
          t.generator.counter < 2 ^ 128 := by
        intro t ht hlast
        obtain ⟨hkept, hle⟩ := counter_le_run call ht
        have hrest : (call.run t).2.generator.counter ≤
            (answer (call :: calls) t).2.generator.counter :=
          counter_le_answer calls (hkept ▸ ht)
        omega
      have hcounter := counter_eq_of_run_eq hblocks hpositive hpositive' halike.schedule_eq
        (hbound hpositive hcount) (hbound hpositive' hcount') hequal.1
      rw [h.counter_eq, h'.counter_eq] at hcounter
      omega

theorem alike_ofSeedWith (width width' : Nat) (seed : Block) :
    Alike (ofSeedWith width seed) (ofSeedWith width' seed) :=
  ⟨rfl, fun _ => rfl⟩

/-- **The width of the buffer shows exactly where whole blocks are read after different numbers
of refilled blocks.**  Streams of one seed with buffers of two widths, as long as neither
encrypts more than `2 ^ 128` counters, give the same answers to a sequence of calls if and only
if both buffers have been filled with equally many blocks whenever a call reads whole blocks. -/
theorem width_shows_iff (width width' : Nat) (hwidth : 0 < width) (hwidth' : 0 < width')
    (seed : Block) (calls : List Call)
    (hcount : (answer calls (ofSeedWith width seed)).2.generator.counter ≤ 2 ^ 128)
    (hcount' : (answer calls (ofSeedWith width' seed)).2.generator.counter ≤ 2 ^ 128) :
    (answer calls (ofSeedWith width' seed)).1 = (answer calls (ofSeedWith width seed)).1 ↔
      SameRefills width width' 0 calls :=
  answer_eq_iff hwidth hwidth' calls (counted_ofSeedWith width seed)
    (counted_ofSeedWith width' seed) (alike_ofSeedWith width width' seed) hcount hcount'

/-- Whole blocks before the first word do not tell widths apart. -/
theorem width_shows_iff_blocks_first :
    (answer [.fill 40, .word64, .fill 7] (ofSeedWith 4 Block.one)).1 =
      (answer [.fill 40, .word64, .fill 7] (ofSeedWith 9 Block.one)).1 :=
  (width_shows_iff 9 4 (by decide) (by decide) Block.one [.fill 40, .word64, .fill 7]
    (by rw [counter_answer (by decide)]; decide)
    (by rw [counter_answer (by decide)]; decide)).mpr (by decide)

/-- A word and then a block do: under every seed, a buffer of nine blocks and one of four give
different answers. -/
theorem answer_ne_after_word (seed : Block) :
    (answer [.word32, .fill 16] (ofSeedWith 4 seed)).1 ≠
      (answer [.word32, .fill 16] (ofSeedWith 9 seed)).1 := by
  intro h
  have hcount : ∀ width, width = 9 ∨ width = 4 →
      (answer [.word32, .fill 16] (ofSeedWith width seed)).2.generator.counter ≤ 2 ^ 128 := by
    rintro width (rfl | rfl) <;> rw [counter_answer (by decide)] <;> decide
  have hsame := (answer_eq_iff (by decide) (by decide) [.word32, .fill 16]
    (counted_ofSeedWith 9 seed) (counted_ofSeedWith 4 seed) (alike_ofSeedWith 9 4 seed)
    (hcount 9 (.inl rfl)) (hcount 4 (.inr rfl))).mp h
  exact absurd hsame (by decide)

/-- In particular, a word and a block under this seed. -/
theorem width_shows_after_word :
    (answer [.word32, .fill 16] (ofSeedWith 4 (.ofNat 0xb50a7debb774ce5692c13f28f45e2b40))).1 ≠
      (answer [.word32, .fill 16] (ofSeedWith 9 (.ofNat 0xb50a7debb774ce5692c13f28f45e2b40))).1 :=
  answer_ne_after_word _

end Beaver.Keystream
