import Beaver.Proofs.Faults.Matrices
import Beaver.Proofs.Faults.Tossing
import Beaver.Proofs.Transfer.Phases
import Beaver.Proofs.WireForms

/-!
# Extended transfers with guards

Both ends of a transfer extension with every index, word and counter looked at.  Whatever
the other end sends, and at whatever phase an earlier batch was given up, a batch that
memory has room for comes to its blocks or to an error (`Sender.guards_send`,
`Receiver.guards_receive`).  All that a batch leaves behind for the next one is that no
counter has gone further than `2 ^ 64` for each batch so far.
-/

namespace Beaver

open List

/-- The squares of a matrix that a message brings have all been sent. -/
theorem BitMatrix.length_of_read {bs : Bytes} {m : BitMatrix} (h : wire.read bs = .ok m) :
    m.squares.length * 2048 ≤ bs.length := by
  obtain ⟨-, hbytes⟩ := (exact_wire.read_iff bs m).mp h
  have hlength := hbytes.length_le
  rw [length_encode_wire] at hlength
  omega

namespace Transfer

open Session (Guards)
open BitMatrix (ofStreams length_ofStreams)

/-- The challenges of the check, from a stream that counts in a word. -/
def Guarded.challenges {σ : Type} (l : LinkEnd) (n : Nat) : Session σ (List Block) := do
  let coins ← CoinToss.pairwise l
  let seed := (coins.takeBytes 16).1
  let chi ← Session.total ((Keystream.ofSeed (Block.ofBytes seed)).blocks? n)
  pure chi.1

variable {σ : Type} {inv : σ → Prop} {n k : Nat} {streams : List Keystream}

theorem guards_challenges {t : σ} {post : List Block → σ → Prop} {l : LinkEnd} (hn : n < 2 ^ 64)
    (hpost : ∀ chi, post chi t) (herror : inv t) :
    Guards t (Guarded.challenges l n) (challenges l n) post inv := by
  have hcounter : ∀ seed, (Keystream.ofSeed seed).generator.counter + n < 2 ^ 128 := by
    intro seed
    have hfresh : (Keystream.ofSeed seed).generator.counter = 0 := rfl
    omega
  refine .bind (CoinToss.guards_pairwise (fun coins => ?_) herror)
  exact .guard (Keystream.blocks?_eq n (hcounter _)) (.pure (hpost _))

theorem add_le_of_batch {c d : Nat} (hc : c ≤ k * 2 ^ 64) (hd : d ≤ 2 ^ 64) :
    c + d ≤ (k + 1) * 2 ^ 64 := by
  rw [Nat.succ_mul]
  exact Nat.add_le_add hc hd

/-- No stream has gone further than `k` batches can take it. -/
def StreamsWithin (k : Nat) (streams : List Keystream) : Prop :=
  streams.length = 128 ∧ ∀ s ∈ streams, s.generator.counter ≤ k * 2 ^ 64

/-- A batch that memory has room for takes every stream less than `2 ^ 64` further. -/
theorem StreamsWithin.advanced (h : StreamsWithin k streams) (hn : squaresFor n * 128 < 2 ^ 64) :
    StreamsWithin (k + 1) (advanced (squaresFor n) streams) := by
  refine ⟨by rw [Transfer.advanced, length_map, h.1], fun s hs => ?_⟩
  obtain ⟨stream, hstream, rfl⟩ := mem_map.mp hs
  rw [Keystream.counter_blocks]
  exact add_le_of_batch (h.2 stream hstream) (by omega)

theorem StreamsWithin.mono {k' : Nat} (h : StreamsWithin k streams) (hle : k ≤ k') :
    StreamsWithin k' streams :=
  ⟨h.1, fun s hs => Nat.le_trans (h.2 s hs) (Nat.mul_le_mul_right _ hle)⟩

theorem StreamsWithin.of_fresh (hlength : streams.length = 128)
    (h : ∀ s ∈ streams, s.generator.counter = 0) : StreamsWithin 0 streams :=
  ⟨hlength, fun s hs => by rw [h s hs, Nat.zero_mul]⟩

theorem StreamsWithin.counter_add_lt (h : StreamsWithin k streams) (hk : k < 2 ^ 64)
    (hn : squaresFor n * 128 < 2 ^ 64) :
    ∀ s ∈ streams, s.generator.counter + squaresFor n < 2 ^ 128 := by
  intro s hs
  have hle := h.2 s hs
  omega

section Batches

variable {m : BitMatrix} (hm : m.squares.length = squaresFor n)
include hm

theorem height_of_batch : m.height = squaresFor n * 128 := by
  rw [BitMatrix.height, hm]

variable (hword : squaresFor n * 128 < 2 ^ 64)
include hword

theorem height?_of_batch : m.height? = some m.height :=
  BitMatrix.height?_eq (hm ▸ hword)

/-- The rows of a batch are there to be hashed, and the counter has room for all of them. -/
theorem rows_of_batch {counter : Nat} (hk : k < 2 ^ 64) (hcounter : counter ≤ k * 2 ^ 64) :
    ¬ m.height < n ∧ (m.rows.take n).length = n ∧ n < 2 ^ 64 ∧ counter + n ≤ 2 ^ 128 ∧
      addIn? 128 counter m.height = some (counter + m.height) ∧
      counter + m.height ≤ (k + 1) * 2 ^ 64 := by
  have hheight := height_of_batch hm
  have hle := length_le_height n
  have hrows : (m.rows.take n).length = n := by
    rw [length_take, BitMatrix.length_rows]
    omega
  exact ⟨by omega, hrows, by omega, by omega, addIn?_eq (by omega),
    add_le_of_batch hcounter (by omega)⟩

end Batches

namespace Sender

namespace Guarded

/-- Expands the seeds to a batch of `n` transfers. -/
def expand (n : Nat) : Session Sender Unit := do
  advance .expand .correlate
  modify ({ · with size := n })
  let rows ← Session.total (extendedLength? n)
  let blank ← Session.total (BitMatrix.zeros? rows)
  let (matrix, streams) ← BitMatrix.Guarded.expand blank (← get).streams
  modify ({ · with matrix, streams })

/-- Applies the receiver's correction to the columns that `delta` selects. -/
def correlate (l : LinkEnd) : Session Sender Unit := do
  advance .correlate .transpose
  let u ← l.recv "KOS_u" BitMatrix.wire
  let s ← get
  let mine ← Session.total s.matrix.height?
  let theirs ← Session.total u.height?
  Session.check (checkLength mine theirs)
  let matrix ← BitMatrix.Guarded.addWhere s.matrix s.delta u
  modify ({ · with matrix })

/-- Turns the matrix so that row `l` belongs to transfer `l`. -/
def transpose : Session Sender Unit := do
  advance .transpose .check
  let matrix ← BitMatrix.Guarded.transpose (← get).matrix
  modify ({ · with matrix })

/-- Checks that all columns were tied to the same choice bits. -/
def check (l : LinkEnd) : Session Sender Unit := do
  advance .check .hash
  let s ← get
  if s.passive then pure ()
  else
    let chi ← Guarded.challenges l s.matrix.height
    let q := combineRows s.matrix.rows chi
    let (x, t) ← l.recv "KOS_check" answerWire
    if addWide q (x.clmul s.delta) = t then pure ()
    else Session.fail (.cheat .correlation)

/-- Hashes the rows of the batch, with and without `delta`. -/
def hash : Session Sender (List (Block × Block)) := do
  advance .hash .expand
  let s ← get
  if s.matrix.height < s.size then throw .fault
  let rows := s.matrix.rows.take s.size
  let k0 ← Session.total (TweakedHash.hashFrom? s.counter rows)
  let k1 ← Session.total (TweakedHash.hashFrom? s.counter (rows.map (· ^^^ s.delta)))
  let height ← Session.total s.matrix.height?
  let counter ← Session.total (addIn? 128 s.counter height)
  modify ({ · with counter, matrix := .empty })
  pure (k0.zip k1)

/-- Sends a batch of `n` transfers. -/
def send (l : LinkEnd) (n : Nat) : Session Sender (List (Block × Block)) := do
  expand n
  correlate l
  transpose
  check l
  hash

end Guarded

/-- No counter of the sender has gone further than `k` batches can take it. -/
structure Within (k : Nat) (s : Sender) : Prop where
  streams : StreamsWithin k s.streams
  counter_le : s.counter ≤ k * 2 ^ 64

/-- The sender in the middle of batch `k`, which has `n` transfers. -/
structure Batch (k n : Nat) (s : Sender) : Prop where
  size_eq : s.size = n
  length_squares : s.matrix.squares.length = squaresFor n
  streams : StreamsWithin (k + 1) s.streams
  counter_le : s.counter ≤ k * 2 ^ 64

theorem Within.mono {k k' : Nat} {s : Sender} (h : s.Within k) (hle : k ≤ k') : s.Within k' :=
  ⟨h.streams.mono hle, Nat.le_trans h.counter_le (Nat.mul_le_mul_right _ hle)⟩

/-- A new sender with streams that have not been used. -/
theorem within_of_ofSeeds {delta : BitString} {seeds : List Keystream} {passive : Bool} {s : Sender}
    (hfresh : ∀ stream ∈ seeds, stream.generator.counter = 0)
    (h : ofSeeds delta seeds passive = .ok s) : s.Within 0 := by
  obtain ⟨_, -, h⟩ := bind_eq_ok_iff.mp h
  obtain ⟨_, hlength, h⟩ := bind_eq_ok_iff.mp h
  cases h
  exact ⟨.of_fresh (checkLength_ok hlength).symm hfresh, Nat.zero_le _⟩

theorem Batch.within {k n : Nat} {s : Sender} (h : s.Batch k n) : s.Within (k + 1) :=
  ⟨h.streams, add_le_of_batch h.counter_le (Nat.zero_le _)⟩

variable {s : Sender} {k n : Nat} {l : LinkEnd}
variable {α : Type} {now next : Phase} {g p : Unit → Session Sender α} {post : α → Sender → Prop}

/-- A phase goes on from where the last one ended, or nothing happens. -/
theorem guards_advance {inv : Sender → Prop}
    (h : Guards { s with phase := next } (g ()) (p ()) post inv) (herror : inv s) :
    Guards s (advance now next >>= g) (advance now next >>= p) post inv :=
  .bind (.getThen (.ite (fun _ => .modify h) fun _ => .fail herror))

theorem Batch.guards_advance (hs : s.Batch k n)
    (h : ∀ t : Sender, t.Batch k n → Guards t (g ()) (p ()) post (Within (k + 1))) :
    Guards s (advance now next >>= g) (advance now next >>= p) post (Within (k + 1)) :=
  Sender.guards_advance (h _ { hs with }) hs.within

theorem guards_expand (hroom : HasRoom n) (hk : k < 2 ^ 64) (hs : s.Within k) :
    Guards s (Guarded.expand n) (expand n) (fun _ t => t.Batch k n) (Within (k + 1)) := by
  obtain ⟨rows, blank, hrows, hblank, hsquares, hword⟩ := hroom.exists_blank
  have hcounters : ∀ stream ∈ s.streams,
      stream.generator.counter + blank.squares.length < 2 ^ 128 := by
    rw [hsquares]
    exact hs.streams.counter_add_lt hk hword
  refine guards_advance ?_ (hs.mono (Nat.le_succ k))
  refine .modifyThen (.totalThen hrows (.totalThen hblank (.getThen ?_)))
  refine .bind (BitMatrix.guards_expand hs.streams.1 hcounters ?_)
  rw [hsquares]
  exact .modify ⟨rfl, length_ofStreams _ _, hs.streams.advanced hword, hs.counter_le⟩

theorem guards_correlate (hword : squaresFor n * 128 < 2 ^ 64) (hs : s.Batch k n) :
    Guards s (Guarded.correlate l) (correlate l) (fun _ t => t.Batch k n) (Within (k + 1)) := by
  refine hs.guards_advance fun t ht => ?_
  refine .bind (LinkEnd.guards_recv (fun bs u hbs hread => ?_) ht.within)
  have hsize := Nat.lt_of_le_of_lt (BitMatrix.length_of_read hread) hbs
  rw [memoryLimit, Nat.pow_eq] at hsize
  refine .getThen (.guard (height?_of_batch ht.length_squares hword) ?_)
  refine .guard (BitMatrix.height?_eq (by omega)) ?_
  refine .bind (.check (fun _ _ => .bind (BitMatrix.guards_addWhere (fun r hlength => ?_) ht.within))
    ht.within)
  exact .modify { ht with length_squares := hlength.trans ht.length_squares }

theorem guards_transpose (hs : s.Batch k n) :
    Guards s Guarded.transpose transpose (fun _ t => t.Batch k n) (Within (k + 1)) := by
  refine hs.guards_advance fun t ht => ?_
  simp only [BitMatrix.guarded_transpose]
  have hlength : t.matrix.transpose.squares.length = squaresFor n := by
    rw [BitMatrix.transpose, length_map, ht.length_squares]
  exact .done { ht with length_squares := hlength }

theorem guards_check (hword : squaresFor n * 128 < 2 ^ 64) (hs : s.Batch k n) :
    Guards s (Guarded.check l) (check l) (fun _ t => t.Batch k n) (Within (k + 1)) := by
  refine hs.guards_advance fun t ht => .getThen (.ite (fun _ => .pure ht) fun _ => ?_)
  have hheight := height_of_batch ht.length_squares
  refine .bind (guards_challenges (hheight ▸ hword) (fun chi => ?_) ht.within)
  refine .bind (LinkEnd.guards_recv (fun _ _ _ _ => ?_) ht.within)
  exact .ite (fun _ => .pure ht) fun _ => .fail ht.within

theorem guards_hash (hword : squaresFor n * 128 < 2 ^ 64) (hk : k < 2 ^ 64) (hs : s.Batch k n) :
    Guards s Guarded.hash hash (fun out t => out.length = n ∧ t.Within (k + 1))
      (Within (k + 1)) := by
  refine hs.guards_advance fun t ht => .getThen ?_
  obtain ⟨hfits, hrows, hlength, hcounter, hadd, hnext⟩ :=
    rows_of_batch ht.length_squares hword hk ht.counter_le
  rw [ht.size_eq, if_neg hfits, if_neg hfits]
  refine .guard (TweakedHash.hashFrom?_eq (by omega) (by omega)) ?_
  refine .guard (TweakedHash.hashFrom?_eq (by rw [length_map]; omega)
    (by rw [length_map]; omega)) ?_
  refine .guard (height?_of_batch ht.length_squares hword) ?_
  refine .guard hadd (.modifyThen (.pure ⟨?_, ht.streams, hnext⟩))
  rw [length_zip, TweakedHash.length_hashFrom, TweakedHash.length_hashFrom, length_map, hrows,
    Nat.min_self]

/-- **Sending a batch never faults**, whatever arrives. -/
theorem guards_send (hroom : HasRoom n) (hk : k < 2 ^ 64) (hs : s.Within k) :
    Guards s (Guarded.send l n) (send l n) (fun out t => out.length = n ∧ t.Within (k + 1))
      (Within (k + 1)) := by
  obtain ⟨-, -, -, -, -, hword⟩ := hroom.exists_blank
  refine (guards_expand hroom hk hs).andThen fun _ t ht => ?_
  refine (guards_correlate hword ht).andThen fun _ t ht => ?_
  refine (guards_transpose ht).andThen fun _ t ht => ?_
  refine (guards_check hword ht).andThen fun _ t ht => ?_
  exact guards_hash hword hk ht

end Sender

/-- Random choice bits have all their bytes. -/
theorem guards_drawChoices {t : σ} {post : BitString → σ → Prop}
    (hpost : ∀ v : BitString, v.length = n → v.bytes.length = BitString.bytesFor v.length → post v t) :
    Guards t (drawChoices n) (drawChoices n) post inv := by
  refine .bind (.draw fun bs hlength => .pure (hpost _ ?_ ?_))
  · exact (BitString.length_clearPadding ⟨bs, n⟩).1
  · obtain ⟨hkeep, hbytes⟩ := BitString.length_clearPadding ⟨bs, n⟩
    rw [hkeep, hbytes]
    exact hlength

namespace Receiver

namespace Guarded

/-- Expands the seeds to a batch of `n` transfers. -/
def expand (n : Nat) : Session Receiver Unit := do
  advance .expand .correlate
  let rows ← Session.total (extendedLength? n)
  modify ({ · with size := n })
  let blank ← Session.total (BitMatrix.zeros? rows)
  let (matrix, zeros) ← BitMatrix.Guarded.expand blank (← get).zeros
  modify ({ · with matrix, zeros })
  let (mask, ones) ← BitMatrix.Guarded.expand blank (← get).ones
  modify ({ · with mask, ones })

/-- The choice bits with random padding. -/
def pad (choices : BitString) : Session Receiver BitString := do
  let s ← get
  let height ← Session.total s.matrix.height?
  if height < s.size then throw .fault
  let padding ← drawChoices (height - s.size)
  match choices.append padding with
  | (padded, none) => pure padded
  | (_, some failure) => throw failure

/-- Sends the correction that ties the columns to the padded choice bits. -/
def tie (l : LinkEnd) (padded : BitString) : Session Receiver Unit := do
  let mask := (← get).mask
  modify ({ · with mask := .empty })
  let u ← Session.check (mask.xor (← get).matrix)
  let u ← BitMatrix.Guarded.xorChoices u padded
  modify ({ · with choices := padded })
  l.send BitMatrix.wire u

/-- Pads the choice bits and ties the columns to them. -/
def correlate (l : LinkEnd) (choices : BitString) : Session Receiver Unit := do
  Session.check (checkLength (← get).size choices.length)
  advance .correlate .transpose
  let padded ← pad choices
  tie l padded

/-- Turns the matrix so that row `l` belongs to transfer `l`. -/
def transpose : Session Receiver Unit := do
  advance .transpose .check
  let matrix ← BitMatrix.Guarded.transpose (← get).matrix
  modify ({ · with matrix })

/-- Shows that all columns were tied to the same choice bits. -/
def check (l : LinkEnd) : Session Receiver Unit := do
  advance .check .hash
  let s ← get
  if s.passive then pure ()
  else
    let chi ← Guarded.challenges l s.matrix.height
    let bits ← Session.total ((range s.matrix.height).mapM s.choices.get?)
    let x := combineChoices bits chi
    let t := combineRows s.matrix.rows chi
    l.send answerWire (x, t.1, t.2)

/-- Hashes the rows of the batch. -/
def hash : Session Receiver (List Block) := do
  advance .hash .expand
  let s ← get
  if s.matrix.height < s.size then throw .fault
  let out ← Session.total (TweakedHash.hashFrom? s.counter (s.matrix.rows.take s.size))
  let height ← Session.total s.matrix.height?
  let counter ← Session.total (addIn? 128 s.counter height)
  modify ({ · with counter, matrix := .empty })
  pure out

/-- Receives one block for each choice bit. -/
def receive (l : LinkEnd) (choices : BitString) : Session Receiver (List Block) := do
  expand choices.length
  correlate l choices
  transpose
  check l
  hash

end Guarded

/-- No counter of the receiver has gone further than `k` batches can take it. -/
structure Within (k : Nat) (r : Receiver) : Prop where
  zeros : StreamsWithin k r.zeros
  ones : StreamsWithin k r.ones
  counter_le : r.counter ≤ k * 2 ^ 64

/-- The receiver in the middle of batch `k`, which has `n` transfers. -/
structure Batch (k n : Nat) (r : Receiver) : Prop where
  size_eq : r.size = n
  length_squares : r.matrix.squares.length = squaresFor n
  zeros : StreamsWithin (k + 1) r.zeros
  ones : StreamsWithin (k + 1) r.ones
  counter_le : r.counter ≤ k * 2 ^ 64

/-- The string has a bit for every row of a batch of `n` transfers. -/
structure Padded (n : Nat) (v : BitString) : Prop where
  length_eq : v.length = squaresFor n * 128
  length_bytes : v.bytes.length = BitString.bytesFor v.length

theorem Within.mono {k k' : Nat} {r : Receiver} (h : r.Within k) (hle : k ≤ k') : r.Within k' :=
  ⟨h.zeros.mono hle, h.ones.mono hle, Nat.le_trans h.counter_le (Nat.mul_le_mul_right _ hle)⟩

/-- A new receiver with streams that have not been used. -/
theorem within_of_ofSeeds {seeds : List (Keystream × Keystream)} {passive : Bool} {r : Receiver}
    (hfresh : ∀ p ∈ seeds, p.1.generator.counter = 0 ∧ p.2.generator.counter = 0)
    (h : ofSeeds seeds passive = .ok r) : r.Within 0 := by
  obtain ⟨_, hlength, h⟩ := bind_eq_ok_iff.mp h
  cases h
  have hseeds : seeds.length = 128 := (checkLength_ok hlength).symm
  refine ⟨.of_fresh (by simpa using hseeds) ?_, .of_fresh (by simpa using hseeds) ?_,
    Nat.zero_le _⟩
  · exact forall_mem_map.mpr fun p hp => (hfresh p hp).1
  · exact forall_mem_map.mpr fun p hp => (hfresh p hp).2

theorem Batch.within {k n : Nat} {r : Receiver} (h : r.Batch k n) : r.Within (k + 1) :=
  ⟨h.zeros, h.ones, add_le_of_batch h.counter_le (Nat.zero_le _)⟩

variable {r : Receiver} {k n : Nat} {l : LinkEnd} {v : BitString}
variable {α : Type} {now next : Phase} {g p : Unit → Session Receiver α}
variable {post : α → Receiver → Prop} {inv : Receiver → Prop}

/-- A phase goes on from where the last one ended, or nothing happens. -/
theorem guards_advance (h : Guards { r with phase := next } (g ()) (p ()) post inv)
    (herror : inv r) : Guards r (advance now next >>= g) (advance now next >>= p) post inv :=
  .bind (.getThen (.ite (fun _ => .modify h) fun _ => .fail herror))

/-- A later phase keeps the batch, and the choice bits with it. -/
theorem Batch.guards_advance (hr : r.Batch k n)
    (h : ∀ t : Receiver, t.Batch k n → t.choices = r.choices →
      Guards t (g ()) (p ()) post (Within (k + 1))) :
    Guards r (advance now next >>= g) (advance now next >>= p) post (Within (k + 1)) :=
  Receiver.guards_advance (h _ { hr with } rfl) hr.within

theorem guards_expand (hroom : HasRoom n) (hk : k < 2 ^ 64) (hr : r.Within k) :
    Guards r (Guarded.expand n) (expand n)
      (fun _ t => t.Batch k n ∧ t.mask.squares.length = squaresFor n) (Within (k + 1)) := by
  obtain ⟨rows, blank, hrows, hblank, hsquares, hword⟩ := hroom.exists_blank
  have hzeros := hr.zeros.counter_add_lt hk hword
  have hones := hr.ones.counter_add_lt hk hword
  rw [← hsquares] at hzeros hones
  refine guards_advance ?_ (hr.mono (Nat.le_succ k))
  refine .totalThen hrows (.modifyThen (.totalThen hblank (.getThen ?_)))
  refine .bind (BitMatrix.guards_expand hr.zeros.1 hzeros (.modifyThen (.getThen ?_)))
  refine .bind (BitMatrix.guards_expand hr.ones.1 hones ?_)
  rw [hsquares]
  exact .modify ⟨⟨rfl, length_ofStreams _ _, hr.zeros.advanced hword, hr.ones.advanced hword,
    hr.counter_le⟩, length_ofStreams _ _⟩

theorem guards_pad {post : BitString → Receiver → Prop} (hword : squaresFor n * 128 < 2 ^ 64)
    (hr : r.Batch k n) (hv : v.length = n) (hpost : ∀ padded, Padded n padded → post padded r) :
    Guards r (Guarded.pad v) (pad v) post inv := by
  have hheight := height_of_batch hr.length_squares
  have hle := length_le_height n
  have hsize := hr.size_eq
  have hfits : ¬ r.matrix.height < r.size := by omega
  refine .getThen (.guard (height?_of_batch hr.length_squares hword) ?_)
  simp only [if_neg hfits]
  refine .bind (guards_drawChoices fun padding hlength hbytes => ?_)
  obtain ⟨joined, happend, htotal, hjoined⟩ := v.append_of_bytes hbytes (by omega)
  rw [happend]
  exact .pure (hpost joined ⟨by omega, hjoined⟩)

theorem guards_tie (hword : squaresFor n * 128 < 2 ^ 64) (hr : r.Batch k n)
    (hmask : r.mask.squares.length = squaresFor n) (hv : Padded n v) :
    Guards r (Guarded.tie l v) (tie l v) (fun _ t => t.Batch k n ∧ Padded n t.choices)
      (Within (k + 1)) := by
  have hbatch : Batch k n { r with mask := .empty } := { hr with }
  refine .getThen (.modifyThen (.getThen ?_))
  refine .bind (.check (fun sum hsum => ?_) hbatch.within)
  have hlength := BitMatrix.length_of_xor hsum
  refine .bind (BitMatrix.guards_xorChoices (by omega) (fun u => ?_) hbatch.within)
  exact .modifyThen (LinkEnd.guards_send ⟨{ hr with }, hv⟩)

theorem guards_correlate (hword : squaresFor n * 128 < 2 ^ 64) (hr : r.Batch k n)
    (hmask : r.mask.squares.length = squaresFor n) (hv : v.length = n) :
    Guards r (Guarded.correlate l v) (correlate l v) (fun _ t => t.Batch k n ∧ Padded n t.choices)
      (Within (k + 1)) := by
  have hphase : Batch k n { r with phase := .transpose } := { hr with }
  refine .getThen (.bind (.check (fun _ _ => guards_advance ?_ hr.within) hr.within))
  exact .bind (guards_pad hword hphase hv fun padded hpadded =>
    guards_tie hword hphase hmask hpadded)

theorem guards_transpose (hr : r.Batch k n) (hchoices : Padded n r.choices) :
    Guards r Guarded.transpose transpose (fun _ t => t.Batch k n ∧ Padded n t.choices)
      (Within (k + 1)) := by
  refine hr.guards_advance fun t ht heq => ?_
  simp only [BitMatrix.guarded_transpose]
  have hlength : t.matrix.transpose.squares.length = squaresFor n := by
    rw [BitMatrix.transpose, length_map, ht.length_squares]
  exact .done ⟨{ ht with length_squares := hlength }, heq ▸ hchoices⟩

theorem guards_check (hword : squaresFor n * 128 < 2 ^ 64) (hr : r.Batch k n)
    (hchoices : Padded n r.choices) :
    Guards r (Guarded.check l) (check l) (fun _ t => t.Batch k n) (Within (k + 1)) := by
  refine hr.guards_advance fun t ht heq => .getThen (.ite (fun _ => .pure ht) fun _ => ?_)
  rw [← heq] at hchoices
  have hheight : t.matrix.height = t.choices.length := by
    rw [BitMatrix.height, ht.length_squares, hchoices.length_eq]
  have hbits : (range t.matrix.height).mapM t.choices.get? = some t.choices.bits := by
    rw [hheight]
    exact BitString.mapM_get? (Nat.le_of_eq hchoices.length_bytes.symm)
  refine .bind (guards_challenges (by rw [hheight, hchoices.length_eq]; exact hword) (fun chi => ?_)
    ht.within)
  exact .guard hbits (LinkEnd.guards_send ht)

theorem guards_hash (hword : squaresFor n * 128 < 2 ^ 64) (hk : k < 2 ^ 64) (hr : r.Batch k n) :
    Guards r Guarded.hash hash (fun out t => out.length = n ∧ t.Within (k + 1))
      (Within (k + 1)) := by
  refine hr.guards_advance fun t ht _ => .getThen ?_
  obtain ⟨hfits, hrows, hlength, hcounter, hadd, hnext⟩ :=
    rows_of_batch ht.length_squares hword hk ht.counter_le
  rw [ht.size_eq, if_neg hfits, if_neg hfits]
  refine .guard (TweakedHash.hashFrom?_eq (by omega) (by omega)) ?_
  refine .guard (height?_of_batch ht.length_squares hword) ?_
  refine .guard hadd (.modifyThen (.pure ⟨?_, ht.zeros, ht.ones, hnext⟩))
  rw [TweakedHash.length_hashFrom, hrows]

/-- **Receiving a batch never faults**, whatever arrives. -/
theorem guards_receive (hroom : HasRoom v.length) (hk : k < 2 ^ 64) (hr : r.Within k) :
    Guards r (Guarded.receive l v) (receive l v)
      (fun out t => out.length = v.length ∧ t.Within (k + 1)) (Within (k + 1)) := by
  obtain ⟨-, -, -, -, -, hword⟩ := hroom.exists_blank
  refine (guards_expand hroom hk hr).andThen fun _ t ht => ?_
  refine (guards_correlate hword ht.1 ht.2 rfl).andThen fun _ t ht => ?_
  refine (guards_transpose ht.1 ht.2).andThen fun _ t ht => ?_
  refine (guards_check hword ht.1 ht.2).andThen fun _ t ht => ?_
  exact guards_hash hword hk ht

end Receiver

end Transfer

end Beaver
