import Beaver.Proofs.Faults.Arithmetic
import Beaver.Proofs.Faults.Guards
import Beaver.Proofs.Hashing
import Beaver.Proofs.Transfer.Matrix
import Beaver.Proofs.Transpose.Squares

/-!
# Guarded matrices and hashes

The operations of a transfer extension on streams, squares and matrices once more, as
loops over rows in which every row, bit and byte is looked up by its index and every
counter is a word of 128 bits.  Nothing is missing as long as the counters have not gone
far, and the results are those of the plain operations.
-/

namespace Beaver

open List
open Session (Guards)

namespace Keystream

/-- The next whole block, if the counter does not leave its word. -/
def block? (s : Keystream) : Option (Block × Keystream) := do
  let _ ← addIn? 128 s.generator.counter 1
  some s.block

/-- The next `n` whole blocks, one after the other. -/
def blocks? : Nat → Keystream → Option (List Block × Keystream)
  | 0, s => some ([], s)
  | n + 1, s => do
      let first ← s.block?
      let rest ← blocks? n first.2
      some (first.1 :: rest.1, rest.2)

variable {s : Keystream}

theorem block?_eq (h : s.generator.counter + 1 < 2 ^ 128) : s.block? = some s.block := by
  rw [block?, addIn?_eq h]
  rfl

theorem blocks_succ (n : Nat) (s : Keystream) :
    s.blocks (n + 1) = (s.block.1 :: (s.block.2.blocks n).1, (s.block.2.blocks n).2) := by
  have hrest : (s.block.2.blocks n).2 = (s.blocks (n + 1)).2 := by
    simp [blocks, block, CounterCipher.blocks, CounterCipher.next, Nat.add_assoc, Nat.add_comm 1]
  have hblocks : (s.blocks (n + 1)).1 = s.block.1 :: (s.block.2.blocks n).1 := by
    simp [blocks, block, CounterCipher.blocks, CounterCipher.next, range_succ_eq_map,
      Function.comp_def, Nat.add_assoc, Nat.add_comm 1]
  rw [← hblocks, hrest]

theorem counter_blocks (n : Nat) (s : Keystream) :
    (s.blocks n).2.generator.counter = s.generator.counter + n := rfl

theorem blocks?_eq (n : Nat) (h : s.generator.counter + n < 2 ^ 128) :
    s.blocks? n = some (s.blocks n) := by
  induction n generalizing s with
  | zero => rfl
  | succ n ih =>
    have hrest : s.block.2.generator.counter + n < 2 ^ 128 := by
      have hnext : s.block.2.generator.counter = s.generator.counter + 1 := rfl
      omega
    rw [blocks?, block?_eq (by omega), blocks_succ]
    simp only [Option.bind_eq_bind, Option.bind_some, ih hrest]

end Keystream

namespace TweakedHash

/-- The tweak of the block at an index, if both the index and the tweak are words. -/
def tweak? (counter i : Nat) : Option Block := do
  let i ← inWord? i
  let t ← addIn? 128 counter i
  some (Block.ofNat t)

/-- The hashes of a list of blocks, whose tweaks have to be words. -/
def hashFrom? (counter : Nat) (xs : List Block) : Option (List Block) :=
  hashList publicKey (tweak? counter) xs

/-- **No tweak leaves its word** as long as the counter has room for the blocks. -/
theorem hashFrom?_eq {counter : Nat} {xs : List Block} (hlength : xs.length < 2 ^ 64)
    (hcounter : counter + xs.length ≤ 2 ^ 128) :
    hashFrom? counter xs = some (hashFrom counter xs) := by
  rw [hashFrom?, hashList, hashListWith_eq _ _ (by decide), hashFrom_eq]
  refine mapM_eq_some fun p hp => ?_
  have hlt := snd_lt_of_mem_zipIdx hp
  rw [hashAt, tweak?, inWord?_eq (by omega)]
  simp only [Option.bind_eq_bind, Option.bind_some]
  rw [addIn?_eq (by omega)]
  rfl

end TweakedHash

namespace Square

/-- The square with row `i` replaced, if it is there. -/
def withRow (s : Square) (i : Nat) (row : Block) : Square :=
  ⟨.ofFn fun k => if k.val = i then row else s.rows.get k⟩

theorem setRow?_eq {i : Nat} (h : i < 128) (s : Square) (row : Block) :
    s.setRow? i row = some (s.withRow i row) := by
  rw [setRow?, dif_pos h, withRow]
  refine congrArg (fun rows => some (mk rows)) (Vector.ext fun k hk => ?_)
  simp [Vector.getElem_set, Vector.get_eq_getElem, eq_comm]

/-- Transposed either way, a square passes all checks on the way. -/
def transpose? (s : Square) : Option Square := do
  let _ ← Transpose.bySquares? s.toBytes.toArray (Array.replicate 2048 0) 128
  let _ ← Transpose.byColumns? s.toBytes.toArray (Array.replicate 2048 0) 128
  some s.transpose

@[simp]
theorem transpose?_eq (s : Square) : s.transpose? = some s.transpose := by
  have hout : (Array.replicate 2048 (0 : UInt8)).size = 2048 := Array.size_replicate
  rw [transpose?, bySquares?_toBytes s hout, byColumns?_toBytes s hout]
  rfl

/-- Adds row `j` of the other square wherever bit `j` is set, row by row. -/
def addWhere? (s : Square) (choice : Block) (other : Square) : Option Square :=
  (range 128).foldlM (fun sum j => do
    let row ← sum.row? j
    let addend ← other.row? j
    let b ← choice.bit? j
    sum.setRow? j (row ^^^ addend.scale b)) s

/-- The rows before `n` have been added. -/
theorem foldlM_addWhere (s : Square) (choice : Block) (other : Square) {n : Nat} (hn : n ≤ 128) :
    (range n).foldlM (fun sum j => do
      let row ← row? sum j
      let addend ← other.row? j
      let b ← choice.bit? j
      sum.setRow? j (row ^^^ addend.scale b)) s
      = some ⟨.ofFn fun k => if k.val < n then s.rows[k] ^^^ other.rows[k].scale (choice.bit k)
          else s.rows[k]⟩ := by
  induction n with
  | zero => simp
  | succ n ih =>
    have hlt : n < 128 := by omega
    rw [range_succ, foldlM_append, ih (by omega)]
    simp only [Option.bind_eq_bind, Option.bind_some, foldlM_cons, foldlM_nil, row?_eq hlt,
      Block.bit?, if_pos hlt, setRow?_eq hlt, Option.pure_def]
    refine congrArg (fun rows => some (mk rows)) (Vector.ext fun k hk => ?_)
    by_cases hkn : k = n
    · subst hkn
      simp
    · have hiff : k < n ↔ k < n + 1 := by omega
      simp [hkn, hiff]

@[simp]
theorem addWhere?_eq (s : Square) (choice : Block) (other : Square) :
    s.addWhere? choice other = some (s.addWhere choice other) := by
  rw [addWhere?, foldlM_addWhere s choice other (Nat.le_refl 128), addWhere]
  simp

end Square

namespace BitString

variable {v : BitString}

/-- Blocks past the last bits are padded with clear ones. -/
theorem block?_eq {i : Nat} (h : 16 * (i + 1) < 2 ^ 64) :
    v.block? i = some (Block.ofBytes (v.bytes.drop (16 * i))) := by
  rw [block?, stretch?, Nat.pow_eq, if_pos h]
  refine congrArg some (Block.ext_bit fun k hk => ?_)
  rw [Block.bit_ofBytes _ hk, Block.bit_ofBytes _ hk, Bytes.bit_append, Bytes.bit_replicate_zero]
  by_cases hin : k < 8 * ((v.bytes.drop (16 * i)).take 16).length
  · rw [if_pos hin, Bytes.bit_take (by omega)]
  · rw [if_neg hin]
    rw [length_take] at hin
    exact (Bytes.bit_of_length_le (by omega)).symm

theorem getElem_blocks {n : Nat} {bs : Bytes} {s : Nat} (h : s < (blocks n bs).length) :
    (blocks n bs)[s] = Block.ofBytes (bs.drop (16 * s)) := by
  induction n generalizing bs s with
  | zero => exact absurd h (Nat.not_lt_zero s)
  | succ n ih =>
    cases s with
    | zero => rfl
    | succ s =>
      simp only [blocks, getElem_cons_succ]
      rw [ih, drop_drop]
      congr 2
      omega

/-- The bits, each looked up by its index. -/
theorem mapM_get? (h : bytesFor v.length ≤ v.bytes.length) :
    (range v.length).mapM v.get? = some v.bits := by
  have hget : ∀ i ∈ range v.length, v.get? i = some (v.bytes.bit i) := by
    intro i hi
    have hlt := mem_range.mp hi
    rw [bytesFor] at h
    have hbyte : i / 8 < v.bytes.length := by omega
    rw [get?, if_pos hlt, getElem?_eq_getElem hbyte, Bytes.bit,
      getElem?_eq_getElem hbyte]
    rfl
  rw [mapM_eq_some hget, bits_eq_map h]

/-- Joining strings makes a string that has all its bytes. -/
theorem append_of_bytes (v : BitString) {w : BitString} (hw : w.bytes.length = bytesFor w.length)
    (hlength : v.length + w.length < 2 ^ 64) :
    ∃ joined, v.append w = (joined, none) ∧ joined.length = v.length + w.length ∧
      joined.bytes.length = bytesFor joined.length := by
  have hbits : w.bits.length = w.length := by
    rw [bits_eq_map (Nat.le_of_eq hw.symm), length_map, length_range]
  have hresize : (v.resize (v.length + w.length)).bytes.length
      = bytesFor (v.length + w.bits.length) := by
    rw [resize, (length_clearPadding _).2, hbits]
    simp
    omega
  have hjoined := (bit_orFrom hresize).1
  have htotal : ((v.resize (v.length + w.length)).orFrom v.length w.bits).length
      = v.length + w.length := (length_clearPadding _).1
  refine ⟨_, ?_, htotal, ?_⟩
  · rw [append, Nat.pow_eq, if_pos hlength, bits?_isSome (Nat.le_of_eq hw.symm)]
    rfl
  · rw [hjoined, hresize, hbits, htotal]

end BitString

namespace BitMatrix

/-- Fills row `j` of every square from one stream. -/
def fillRow? (j : Nat) : List Square → Keystream → Option (List Square × Keystream)
  | [], s => some ([], s)
  | q :: squares, s => do
      let first ← s.block?
      let q ← q.setRow? j first.1
      let rest ← fillRow? j squares first.2
      some (q :: rest.1, rest.2)

/-- Fills the rows from `j` on, each from a stream of its own. -/
def fill? : Nat → List Square → List Keystream → Option (List Square × List Keystream)
  | _, squares, [] => some (squares, [])
  | j, squares, s :: streams => do
      let row ← fillRow? j squares s
      let rest ← fill? (j + 1) row.1 streams
      some (rest.1, row.2 :: rest.2)

variable {j s i : Nat} {squares : List Square} {streams : List Keystream} {choices : BitString}

theorem fillRow?_eq (hj : j < 128) {s : Keystream}
    (h : s.generator.counter + squares.length < 2 ^ 128) :
    fillRow? j squares s
      = some (zipWith (fun q b => q.withRow j b) squares (s.blocks squares.length).1,
          (s.blocks squares.length).2) := by
  induction squares generalizing s with
  | nil => rfl
  | cons q squares ih =>
    rw [length_cons] at h
    have hrest : s.block.2.generator.counter + squares.length < 2 ^ 128 := by
      have hnext : s.block.2.generator.counter = s.generator.counter + 1 := rfl
      omega
    rw [fillRow?, Keystream.block?_eq (by omega), length_cons, Keystream.blocks_succ]
    simp only [Option.bind_eq_bind, Option.bind_some, Square.setRow?_eq hj, ih hrest,
      zipWith_cons_cons]

/-- Row `i` of square `s`. -/
def rowOf (squares : List Square) (s i : Nat) : Option Block :=
  (squares[s]?).bind fun q => q.rows[i]?

/-- Stacks of squares are equal if their rows are. -/
theorem squares_ext {a b : List Square} (hlength : a.length = b.length)
    (h : ∀ s < a.length, ∀ i < 128, rowOf a s i = rowOf b s i) : a = b := by
  refine ext_getElem hlength fun s ha hb => ?_
  have hrows : a[s].rows = b[s].rows := by
    refine Vector.ext fun i hi => ?_
    have hrow := h s ha i hi
    simpa [rowOf, ha, hb, hi] using hrow
  calc
    a[s] = ⟨a[s].rows⟩ := rfl
    _ = ⟨b[s].rows⟩ := by rw [hrows]

theorem rowOf_zipWith_withRow {blocks : List Block} (hlength : blocks.length = squares.length)
    (hs : s < squares.length) (hi : i < 128) :
    rowOf (zipWith (fun q b => q.withRow j b) squares blocks) s i
      = if i = j then blocks[s]? else rowOf squares s i := by
  have hb : s < blocks.length := by omega
  rw [rowOf, rowOf, getElem?_zipWith, getElem?_eq_getElem hs,
    getElem?_eq_getElem hb]
  by_cases hij : i = j
  · subst hij
    simp [Square.withRow, hi]
  · simp [Square.withRow, Vector.get_eq_getElem, hi, hij]

/-- **The loop over the streams** fills each row from its stream and leaves the others. -/
theorem exists_fill (hj : j + streams.length ≤ 128)
    (h : ∀ s ∈ streams, s.generator.counter + squares.length < 2 ^ 128) :
    ∃ filled, fill? j squares streams
        = some (filled, streams.map fun s => (s.blocks squares.length).2) ∧
      filled.length = squares.length ∧ ∀ s < squares.length, ∀ i < 128, rowOf filled s i
        = if j ≤ i ∧ i < j + streams.length then
            (streams[i - j]?).bind fun stream => (stream.blocks squares.length).1[s]?
          else rowOf squares s i := by
  induction streams generalizing j squares with
  | nil =>
    refine ⟨squares, rfl, rfl, fun s _ i _ => ?_⟩
    rw [if_neg (by simp only [length_nil]; omega)]
  | cons stream streams ih =>
    rw [length_cons] at hj
    have hrow := fillRow?_eq (j := j) (by omega) (h stream mem_cons_self)
    have hlength : (zipWith (fun q b => Square.withRow q j b) squares
        (stream.blocks squares.length).1).length = squares.length := by simp
    have hcounters : ∀ s ∈ streams, s.generator.counter
        + (zipWith (fun q b => Square.withRow q j b) squares
          (stream.blocks squares.length).1).length < 2 ^ 128 := by
      rw [hlength]
      exact fun s hs => h s (mem_cons_of_mem stream hs)
    obtain ⟨filled, hfilled, hsize, hrows⟩ :=
      ih (show j + 1 + streams.length ≤ 128 by omega) hcounters
    rw [hlength] at hfilled hsize hrows
    refine ⟨filled, ?_, hsize, fun s hs i hi => ?_⟩
    · rw [fill?, hrow]
      simp only [Option.bind_eq_bind, Option.bind_some, hfilled, map_cons]
    · rw [hrows s hs i hi, rowOf_zipWith_withRow (by simp) hs hi, length_cons]
      by_cases hij : i = j
      · rw [if_neg (by omega), if_pos hij, if_pos (by omega), hij, Nat.sub_self]
        rfl
      · by_cases hin : j + 1 ≤ i ∧ i < j + 1 + streams.length
        · rw [if_pos hin, if_pos (by omega), show i - j = (i - (j + 1)) + 1 by omega,
            getElem?_cons_succ]
        · rw [if_neg hin, if_neg hij, if_neg (by omega)]

theorem rowOf_ofStreams {n : Nat} (hs : s < n) (hi : i < 128) (hstreams : i < streams.length) :
    rowOf (ofStreams n streams).squares s i
      = (streams[i]?).bind fun stream => (stream.blocks n).1[s]? := by
  have hlength : s < (streams[i].blocks n).1.length := by simpa using hs
  obtain ⟨block, hblock⟩ : ∃ block, (streams[i].blocks n).1[s]? = some block :=
    ⟨_, getElem?_eq_getElem hlength⟩
  rw [rowOf, ofStreams, getElem?_map, getElem?_range hs,
    getElem?_eq_getElem hstreams]
  simp [squareOf, columns, unzip_eq_map, hi, hstreams, hblock]

/-- **Filling all rows** gives the matrix of the streams. -/
theorem fill?_eq (hlength : streams.length = 128)
    (h : ∀ s ∈ streams, s.generator.counter + squares.length < 2 ^ 128) :
    fill? 0 squares streams = some ((ofStreams squares.length streams).squares,
      streams.map fun s => (s.blocks squares.length).2) := by
  obtain ⟨filled, hfilled, hsize, hrows⟩ := exists_fill (j := 0) (by omega) h
  have hsquares : filled = (ofStreams squares.length streams).squares := by
    refine squares_ext (by rw [hsize, length_ofStreams]) fun s hs i hi => ?_
    rw [hsize] at hs
    rw [hrows s hs i hi, rowOf_ofStreams hs hi (by omega), if_pos (by omega), Nat.sub_zero]
  rw [hfilled, hsquares]

/-- The number of rows, which has to fit in a word. -/
def height? (m : BitMatrix) : Option Nat :=
  inWord? (m.squares.length * 128)

theorem height?_eq {m : BitMatrix} (h : m.squares.length * 128 < 2 ^ 64) :
    m.height? = some m.height :=
  inWord?_eq h

/-- Blocks of bits, each looked up by its index. -/
theorem mapM_block? (h : squares.length * 128 < 2 ^ 64) :
    squares.zipIdx.mapM (fun p => do
      let row ← choices.block? p.2
      some (p.1.xorRow row))
      = some (zipWith Square.xorRow squares (BitString.blocks squares.length choices.bytes)) := by
  have hstep : ∀ p ∈ squares.zipIdx, (do
      let row ← choices.block? p.2
      some (p.1.xorRow row))
        = some (p.1.xorRow (Block.ofBytes (choices.bytes.drop (16 * p.2)))) := by
    intro p hp
    have hlt := snd_lt_of_mem_zipIdx hp
    rw [BitString.block?_eq (by omega)]
    rfl
  rw [mapM_eq_some hstep]
  refine congrArg some (ext_getElem (by simp) fun s hs _ => ?_)
  simp [BitString.getElem_blocks]

variable {σ : Type} {t : σ} {inv : σ → Prop}

namespace Guarded

/-- The matrix of the same size, filled from streams. -/
def expand (m : BitMatrix) (streams : List Keystream) :
    Session σ (BitMatrix × List Keystream) := do
  Session.check (checkLength 128 streams.length)
  let filled ← Session.total (fill? 0 m.squares streams)
  pure (⟨filled.1⟩, filled.2)

/-- Adds the choice bits to every row. -/
def xorChoices (m : BitMatrix) (choices : BitString) : Session σ BitMatrix := do
  let height ← Session.total m.height?
  Session.check (checkLength height choices.length)
  let squares ← Session.total (m.squares.zipIdx.mapM fun p => do
    let row ← choices.block? p.2
    some (p.1.xorRow row))
  pure ⟨squares⟩

/-- Adds row `j` of every square of the other matrix wherever bit `j` is set. -/
def addWhere (m : BitMatrix) (choice : Block) (other : BitMatrix) : Session σ BitMatrix := do
  Session.check (checkLength m.squares.length other.squares.length)
  let squares ← Session.total
    ((m.squares.zip other.squares).mapM fun p => p.1.addWhere? choice p.2)
  pure ⟨squares⟩

/-- Transposes every square. -/
def transpose (m : BitMatrix) : Session σ BitMatrix := do
  let squares ← Session.total (m.squares.mapM Square.transpose?)
  pure ⟨squares⟩

end Guarded

theorem guards_expand {m : BitMatrix} {post : BitMatrix × List Keystream → σ → Prop}
    (hlength : streams.length = 128)
    (h : ∀ s ∈ streams, s.generator.counter + m.squares.length < 2 ^ 128)
    (hpost : post (ofStreams m.squares.length streams,
      streams.map fun s => (s.blocks m.squares.length).2) t) :
    Guards t (Guarded.expand m streams) (Session.check (m.expand streams)) post inv := by
  rw [expand_eq hlength, Guarded.expand, hlength, checkLength_self]
  exact .guard (fill?_eq hlength h) (.pure hpost)

variable {m other : BitMatrix} {post : BitMatrix → σ → Prop}

theorem guards_xorChoices (h : m.squares.length * 128 < 2 ^ 64) (hpost : ∀ r, post r t)
    (herror : inv t) :
    Guards t (Guarded.xorChoices m choices) (Session.check (m.xorChoices choices)) post inv := by
  refine .guard (height?_eq h) ?_
  rw [xorChoices]
  cases checkLength m.height choices.length with
  | error e => exact .fail herror
  | ok u => exact .guard (mapM_block? h) (.pure (hpost _))

theorem guards_addWhere {choice : Block}
    (hpost : ∀ r, r.squares.length = m.squares.length → post r t) (herror : inv t) :
    Guards t (Guarded.addWhere m choice other) (Session.check (m.addWhere choice other)) post
      inv := by
  rw [addWhere, Guarded.addWhere]
  cases hcheck : checkLength m.squares.length other.squares.length with
  | error e => exact .fail herror
  | ok u =>
    have hlength := checkLength_ok hcheck
    have hrows : (m.squares.zip other.squares).mapM (fun p => p.1.addWhere? choice p.2)
        = some (zipWith (fun s o => s.addWhere choice o) m.squares other.squares) :=
      mapM_zip_eq_some (f := fun s o => s.addWhere? choice o) fun s o =>
        Square.addWhere?_eq s choice o
    exact .guard hrows (.pure (hpost _ (by simp [hlength])))

theorem length_of_xor {u : BitMatrix} (h : m.xor other = .ok u) :
    u.squares.length = m.squares.length := by
  obtain ⟨_, hlength, h⟩ := bind_eq_ok_iff.mp h
  cases h
  simp [checkLength_ok hlength]

theorem guarded_transpose (m : BitMatrix) :
    (Guarded.transpose m : Session σ BitMatrix) = pure m.transpose := by
  rw [Guarded.transpose, mapM_eq_some fun q _ => Square.transpose?_eq q]
  rfl

end BitMatrix

end Beaver
