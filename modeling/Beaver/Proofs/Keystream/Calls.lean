import Mathlib
import Beaver.Proofs.WordBytes
import Beaver.Random.Keystream

/-!
# Calls on a keystream

What a stream is asked for is a sequence of calls for words and for bytes.  Every call is met in
one way: so many whole blocks are encrypted past the buffer, then so many words are taken from it
(`Call.run_eq`).  Words taken and words left are together the words that were pending and those of
the counters that refills encrypted, in order (`take_eq`); and after all calls the counter is
the number of blocks read whole and of blocks encrypted for the buffer (`counter_answer`).
-/

namespace Beaver

open List

namespace CounterCipher

/-- The words of the next `n` blocks. -/
def words (c : CounterCipher) (n : Nat) : List UInt32 :=
  (c.blocks n).1.flatMap Block.words

/-- The cipher after `n` more blocks. -/
def advance (c : CounterCipher) (n : Nat) : CounterCipher :=
  { c with counter := c.counter + n }

@[simp]
theorem advance_advance (c : CounterCipher) (m n : Nat) :
    (c.advance m).advance n = c.advance (m + n) := by
  simp [advance, Nat.add_assoc]

@[simp]
theorem words_zero (c : CounterCipher) : c.words 0 = [] := rfl

@[simp]
theorem length_words (c : CounterCipher) (n : Nat) : (c.words n).length = 4 * n := by
  simp [words, blocks, Block.words, length_flatMap, Function.comp_def, Nat.mul_comm]

/-- The bytes of blocks are those of their words. -/
theorem flatMap_toBytes (c : CounterCipher) (n : Nat) :
    (c.blocks n).1.flatMap Block.toBytes = bytesOfWords (c.words n) := by
  rw [words, bytesOfWords, flatMap_assoc]
  exact flatMap_congr fun b _ => b.toBytes_eq

/-- Blocks follow each other. -/
theorem words_add (c : CounterCipher) (m n : Nat) :
    c.words (m + n) = c.words m ++ (c.advance m).words n := by
  simp [words, blocks, advance, range_add, flatMap_append, map_map,
    Function.comp_def, Nat.add_assoc]

end CounterCipher

namespace Keystream

/-- **Words are taken in order**: from those pending and then, as far as needed, from those of
refills of `width` blocks each. -/
theorem take_eq (k : Nat) {g : CounterCipher} (hwidth : 0 < g.width) (pending : List UInt32) :
    ∃ r, (WordBuffer.mk g pending).take k =
        ((pending ++ g.words (g.width * r)).take k,
          ⟨g.advance (g.width * r), (pending ++ g.words (g.width * r)).drop k⟩) ∧
      k ≤ pending.length + 4 * (g.width * r) ∧
      (r = 0 ∨ pending.length + 4 * (g.width * r) < k + 4 * g.width) := by
  induction k generalizing g pending with
  | zero => exact ⟨0, by simp [WordBuffer.take, CounterCipher.advance], by omega, .inl rfl⟩
  | succ k ih =>
    cases pending with
    | cons w ws =>
      obtain ⟨r, htake, hle, hlt⟩ := ih hwidth ws
      refine ⟨r, ?_, by rw [length_cons]; omega, by rw [length_cons]; omega⟩
      simp only [WordBuffer.take, WordBuffer.next32, htake, cons_append,
        take_succ_cons, drop_succ_cons]
    | nil =>
      obtain ⟨w, ws, hws⟩ : ∃ w ws, g.words g.width = w :: ws :=
        exists_cons_of_length_pos (by rw [CounterCipher.length_words]; omega)
      obtain ⟨r, htake, hle, hlt⟩ := ih (g := g.advance g.width) hwidth ws
      change k ≤ ws.length + 4 * (g.width * r) at hle
      change r = 0 ∨ ws.length + 4 * (g.width * r) < k + 4 * g.width at hlt
      have hlength : ws.length + 1 = 4 * g.width := by
        rw [← length_cons, ← hws, CounterCipher.length_words]
      have hrefills : g.width * (r + 1) = g.width + g.width * r := by ring
      refine ⟨r + 1, ?_, ?_, .inr ?_⟩
      · have hwords : g.words (g.width * (r + 1)) =
            w :: (ws ++ (g.advance g.width).words (g.width * r)) := by
          rw [hrefills, CounterCipher.words_add, hws, cons_append]
        have hrefill : WordGenerator.refill g = (w :: ws, g.advance g.width) := by
          rw [← hws]
          rfl
        have hadvance : (g.advance g.width).advance (g.width * r) =
            g.advance (g.width * (r + 1)) := by
          rw [hrefills, CounterCipher.advance_advance]
        simp only [WordBuffer.take, WordBuffer.next32, hrefill, nil_append, hwords,
          take_succ_cons, drop_succ_cons, ← hadvance]
        rw [htake]
        rfl
      · rw [length_nil, hrefills]
        omega
      · rw [length_nil, hrefills]
        rcases hlt with rfl | hlt
        · rw [Nat.mul_zero]
          omega
        · omega

/-- What a stream can be asked for. -/
inductive Call where
  | word32
  | word64
  | fill (n : Nat)
  deriving DecidableEq

namespace Call

/-- The bytes that a call returns, of a number the least significant first, and the stream
after it. -/
def run (s : Keystream) : Call → Bytes × Keystream
  | word32 =>
    let (w, s) := s.next32
    (Bytes.ofNatLE 4 w.toNat, s)
  | word64 =>
    let (w, s) := s.next64
    (Bytes.ofNatLE 8 w.toNat, s)
  | fill n => s.fill n

/-- How many bytes a call returns. -/
def size : Call → Nat
  | word32 => 4
  | word64 => 8
  | fill n => n

/-- How many blocks a call encrypts past the buffer. -/
def blocks : Call → Nat
  | fill n => n / 16
  | _ => 0

/-- How many words a call takes from the buffer. -/
def words : Call → Nat
  | word32 => 1
  | word64 => 2
  | fill n => (n % 16 + 3) / 4

/-- The blocks and the words have all the bytes. -/
theorem size_le (call : Call) : call.size ≤ 16 * call.blocks + 4 * call.words := by
  cases call <;> simp only [size, blocks, words] <;> omega

theorem le_size (call : Call) : 16 * call.blocks ≤ call.size := by
  cases call <;> simp only [size, blocks] <;> omega

/-- Every call encrypts whole blocks and then takes words. -/
theorem run_eq_take (call : Call) (g : CounterCipher) (pending : List UInt32) :
    call.run ⟨g, pending⟩ =
      let taken := (WordBuffer.mk (g.advance call.blocks) pending).take call.words
      ((bytesOfWords (g.words call.blocks ++ taken.1)).take call.size, taken.2) := by
  cases call with
  | word32 =>
    change (Bytes.ofNatLE 4 _, _) = ((bytesOfWords [_]).take 4, _)
    rw [take_of_length_le (by simp), bytesOfWords, flatMap_singleton, bytesOfWord_eq]
    rfl
  | word64 =>
    change (Bytes.ofNatLE 8 _, _) = ((bytesOfWords [_, _]).take 8, _)
    rw [take_of_length_le (by simp), ← ofNatLE_eight, ← toNat_join]
    rfl
  | fill n =>
    have hwhole : ((Keystream.blocks (n / 16) ⟨g, pending⟩).1.flatMap Block.toBytes) =
        bytesOfWords (g.words (n / 16)) := g.flatMap_toBytes (n / 16)
    have hlength : (bytesOfWords (g.words (n / 16))).length = 16 * (n / 16) := by
      rw [length_bytesOfWords, CounterCipher.length_words]
      omega
    have hall : (bytesOfWords (g.words (n / 16))).take n = bytesOfWords (g.words (n / 16)) :=
      take_of_length_le (by omega)
    have hrest : n - 16 * (n / 16) = n % 16 := by omega
    simp only [run, size, blocks, words, Keystream.fill, WordBuffer.takeBytes, hwhole]
    rw [bytesOfWords_append, take_append, hlength, hrest, hall]
    rfl

/-- **One call**: the words it uses are those of the blocks it encrypts and the next ones of the
buffer, which is refilled as far as needed. -/
theorem run_eq (call : Call) {g : CounterCipher} (hwidth : 0 < g.width) (pending : List UInt32) :
    ∃ r, call.run ⟨g, pending⟩ =
        ((bytesOfWords (g.words call.blocks ++
            (pending ++ (g.advance call.blocks).words (g.width * r)).take call.words)).take
              call.size,
          ⟨g.advance (call.blocks + g.width * r),
            (pending ++ (g.advance call.blocks).words (g.width * r)).drop call.words⟩) ∧
      call.words ≤ pending.length + 4 * (g.width * r) ∧
      (r = 0 ∨ pending.length + 4 * (g.width * r) < call.words + 4 * g.width) := by
  obtain ⟨r, htake, hbounds⟩ := take_eq call.words (g := g.advance call.blocks) hwidth pending
  refine ⟨r, ?_, hbounds⟩
  rw [run_eq_take, htake, CounterCipher.advance_advance]
  rfl

end Call

/-- What calls return, one after the other, and the stream after the last one. -/
def answer : List Call → Keystream → List Bytes × Keystream
  | [], s => ([], s)
  | call :: calls, s =>
    let (bs, s) := call.run s
    let (rest, s) := answer calls s
    (bs :: rest, s)

/-- How many blocks were encrypted for a buffer of the given width once so many words were taken. -/
def refilled (width words : Nat) : Nat :=
  width * ((words + (4 * width - 1)) / (4 * width))

variable {width words blocks : Nat} {s : Keystream}

theorem refilled_eq {r : Nat} (hle : words ≤ 4 * (width * r))
    (hlt : 4 * (width * r) < words + 4 * width) : refilled width words = width * r := by
  have hr : 4 * (width * r) = r * (4 * width) := by ring
  have hnext : (r + 1) * (4 * width) = r * (4 * width) + 4 * width := by ring
  have hdiv : (words + (4 * width - 1)) / (4 * width) = r :=
    Nat.div_eq_of_lt_le (by omega) (by omega)
  rw [refilled, hdiv]

/-- The blocks encrypted for the buffer hold the words taken, and less than a refill is left. -/
theorem refilled_bounds (hwidth : 0 < width) (words : Nat) :
    words ≤ 4 * refilled width words ∧ 4 * refilled width words < words + 4 * width := by
  have hdiv := Nat.div_add_mod (words + (4 * width - 1)) (4 * width)
  have hmod := Nat.mod_lt (words + (4 * width - 1)) (show 0 < 4 * width by omega)
  have hmul : 4 * refilled width words =
      4 * width * ((words + (4 * width - 1)) / (4 * width)) := by
    rw [refilled]
    ring
  omega

/-- A stream from which so many whole blocks and words were taken. -/
structure Counted (width blocks words : Nat) (s : Keystream) : Prop where
  width_eq : s.generator.width = width
  counter_eq : s.generator.counter = blocks + refilled width words
  length_pending : s.pending.length + words = 4 * refilled width words

theorem counted_ofSeedWith (width : Nat) (seed : Block) :
    Counted width 0 0 (ofSeedWith width seed) := by
  have hzero : refilled width 0 = 0 := by
    rcases Nat.eq_zero_or_pos width with rfl | hwidth
    · rfl
    · rw [refilled, Nat.div_eq_of_lt (by omega), Nat.mul_zero]
  exact ⟨rfl, by rw [hzero]; rfl, by rw [hzero]; rfl⟩

theorem Counted.run (hwidth : 0 < width) (h : Counted width blocks words s) (call : Call) :
    Counted width (blocks + call.blocks) (words + call.words) (call.run s).2 := by
  obtain ⟨g, pending⟩ := s
  obtain ⟨hg, hcounter, hlength⟩ := h
  simp only at hg hcounter hlength
  subst hg
  obtain ⟨r, hrun, hle, hlt⟩ := call.run_eq hwidth pending
  have hbounds := refilled_bounds hwidth words
  have hrefilled : refilled g.width (words + call.words) =
      refilled g.width words + g.width * r := by
    have hadd : refilled g.width words + g.width * r =
        g.width * ((words + (4 * g.width - 1)) / (4 * g.width) + r) := by
      rw [refilled]
      ring
    rw [hadd]
    apply refilled_eq
    · omega
    · rcases hlt with rfl | hlt <;> omega
  rw [hrun]
  refine ⟨rfl, ?_, ?_⟩
  · change g.counter + (call.blocks + g.width * r) = _
    omega
  · change ((pending ++ _).drop call.words).length + _ = _
    rw [length_drop, length_append, CounterCipher.length_words]
    omega

theorem Counted.answer (hwidth : 0 < width) (calls : List Call) (h : Counted width blocks words s) :
    Counted width (blocks + (calls.map Call.blocks).sum) (words + (calls.map Call.words).sum)
      (answer calls s).2 := by
  induction calls generalizing blocks words s with
  | nil => exact h
  | cons call calls ih =>
    rw [map_cons, map_cons, sum_cons, sum_cons, ← Nat.add_assoc,
      ← Nat.add_assoc]
    exact ih (h.run hwidth call)

/-- **How many counters calls encrypt**: one for each block read whole, and those of the refills
that their words ask for. -/
theorem counter_answer (hwidth : 0 < width) (seed : Block) (calls : List Call) :
    (Keystream.answer calls (ofSeedWith width seed)).2.generator.counter =
      (calls.map Call.blocks).sum + refilled width (calls.map Call.words).sum := by
  rw [((counted_ofSeedWith width seed).answer hwidth calls).counter_eq, Nat.zero_add, Nat.zero_add]

end Keystream

end Beaver
