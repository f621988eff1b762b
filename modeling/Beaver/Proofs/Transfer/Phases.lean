import Beaver.Proofs.Exchange
import Beaver.Proofs.Transfer.Matrix
import Beaver.Transfer.Receiver
import Beaver.Transfer.Sender

/-!
# The phases of a batch

What each end does in the phases of a batch that memory has room for.  Up to the check,
the receiver draws its padding and sends the correction for it
(`Receiver.start_prepare`), and the sender waits for a correction and applies it
(`Sender.start_prepare`); apart from that, nothing passes between them.
-/

namespace Beaver.Transfer

open Session (resume_ok start_bind start_bind_of_done start_check_ok start_get start_map
  start_modify)
open BitMatrix (ofStreams length_ofStreams)

/-- Memory has room for a batch of `n` transfers. -/
def HasRoom (n : Nat) : Prop :=
  ((extendedLength? n).bind BitMatrix.zeros?).isSome = true

instance (n : Nat) : Decidable (HasRoom n) :=
  inferInstanceAs (Decidable (_ = true))

/-- The number of squares of a batch of `n` transfers. -/
def squaresFor (n : Nat) : Nat := (n + 127) / 128 + 2

theorem HasRoom.exists_blank {n : Nat} (h : HasRoom n) :
    ∃ rows blank, extendedLength? n = some rows ∧ BitMatrix.zeros? rows = some blank ∧
      blank.squares.length = squaresFor n ∧ squaresFor n * 128 < 2 ^ 64 := by
  obtain ⟨blank, hblank⟩ := Option.isSome_iff_exists.mp h
  obtain ⟨rows, hrows, hzeros⟩ := Option.bind_eq_some_iff.mp hblank
  refine ⟨rows, blank, hrows, hzeros, ?_⟩
  rw [extendedLength?, checkPadding, Nat.pow_eq] at hrows
  obtain ⟨-, -, hzeros⟩ := Option.map_eq_some_iff.mp hzeros
  split at hrows
  · next hlt =>
      cases hrows
      rw [← hzeros, BitMatrix.zeros, List.length_replicate, squaresFor]
      omega
  · cases hrows

theorem length_le_height (n : Nat) : n ≤ squaresFor n * 128 := by
  rw [squaresFor]
  omega

/-- The number of bytes of padding of a batch of `n` transfers. -/
def paddingFor (n : Nat) : Nat := BitString.bytesFor (squaresFor n * 128 - n)

/-- The streams after `n` blocks of each. -/
def advanced (n : Nat) (streams : List Keystream) : List Keystream :=
  streams.map fun s => (s.blocks n).2

namespace Receiver

/-- The receiver with the matrices of a batch. -/
def expanded (r : Receiver) (n : Nat) : Receiver :=
  { r with
    phase := .correlate
    size := n
    matrix := ofStreams (squaresFor n) r.zeros
    zeros := advanced (squaresFor n) r.zeros
    mask := ofStreams (squaresFor n) r.ones
    ones := advanced (squaresFor n) r.ones }

theorem start_advance (r : Receiver) {now : Phase} (next : Phase) (h : r.phase = now) :
    (advance now next).start r = .done (.ok (), { r with phase := next }) := by
  rw [advance, start_bind_of_done (start_get r), if_pos h, start_modify]

variable {r : Receiver} {v : BitString}

theorem start_expand {n : Nat} (hphase : r.phase = .expand) (hzeros : r.zeros.length = 128)
    (hones : r.ones.length = 128) (hroom : HasRoom n) :
    (expand n).start r = .done (.ok (), r.expanded n) := by
  obtain ⟨rows, blank, hrows, hblank, hsquares, -⟩ := hroom.exists_blank
  simp [expand, advance, start_bind, hphase, hrows, hblank, BitMatrix.expand_eq, hzeros,
    hones, hsquares, expanded, advanced]

/-- The receiver that has tied its columns to the padded choice bits. -/
def tied (r : Receiver) (n : Nat) (padded : BitString) : Receiver :=
  { r.expanded n with phase := .transpose, choices := padded, mask := .empty }

/-- The receiver before it hashes the rows of its batch. -/
def checked (r : Receiver) (n : Nat) (padded : BitString) : Receiver :=
  { r.tied n padded with
    phase := .hash
    matrix := (ofStreams (squaresFor n) r.zeros).transpose }

/-- The correction `u` that ties both expansions to the padded choice bits. -/
structure Correction (r : Receiver) (v padded : BitString) (u : BitMatrix) : Prop where
  length_squares : u.squares.length = squaresFor v.length
  length_padded : padded.length = squaresFor v.length * 128
  length_bytes : padded.bytes.length = BitString.bytesFor padded.length
  chosen : ∀ k < v.length, padded.bytes.bit k = v.bytes.bit k
  tied : ∀ s i j, s < squaresFor v.length → i < 128 → j < 128 → u.bitAt s i j
    = (((ofStreams (squaresFor v.length) r.ones).bitAt s i j
      ^^ (ofStreams (squaresFor v.length) r.zeros).bitAt s i j) ^^ padded.bytes.bit (128 * s + j))

/-- All phases of a batch but the last. -/
def prepare (l : LinkEnd) (choices : BitString) : Session Receiver Unit := do
  expand choices.length
  correlate l choices
  transpose
  check l

theorem receive_eq (l : LinkEnd) (choices : BitString) :
    receive l choices = prepare l choices >>= fun _ => hash := by
  simp only [receive, prepare, bind_assoc]

theorem start_pad_bind (hsize : r.size = v.length) (hheight : v.length ≤ r.matrix.height) {α : Type}
    (f : BitString → Session Receiver α) :
    (pad v >>= f).start r = .draw (BitString.bytesFor (r.matrix.height - v.length)) fun bs =>
      match v.append (BitString.clearPadding ⟨bs, r.matrix.height - v.length⟩) with
      | (padded, none) => (f padded).start r
      | (_, some failure) => .done (.error failure, r) := by
  have hnot : ¬ r.matrix.height < v.length := by omega
  simp only [pad, drawChoices, start_bind, start_get, Protocol.done_bind,
    resume_ok, hsize, if_neg hnot]
  simp only [Session.start_draw, Protocol.draw_bind, Protocol.done_bind, resume_ok,
    Session.start_pure]
  congr 1
  funext bs
  rcases v.append (BitString.clearPadding ⟨bs, r.matrix.height - v.length⟩) with ⟨padded, _ | _⟩ <;> rfl

theorem start_tie {padded : BitString} {sum u : BitMatrix} (l : LinkEnd)
    (hsum : r.mask.xor r.matrix = .ok sum) (hu : sum.xorChoices padded = .ok u) :
    (tie l padded).start r = .send l.address (BitMatrix.wire.encode u)
      (.done (.ok (), { r with mask := .empty, choices := padded })) := by
  simp [tie, start_bind, LinkEnd.send, hsum, hu]

/-- The padded choice bits and the correction for them, whatever the padding is. -/
theorem exists_correction (hv : v.WellFormed) (hroom : HasRoom v.length) {bs : Bytes}
    (hbs : bs.length = paddingFor v.length) :
    ∃ padded sum u, r.Correction v padded u ∧
      v.append (BitString.clearPadding ⟨bs, squaresFor v.length * 128 - v.length⟩) = (padded, none) ∧
      (ofStreams (squaresFor v.length) r.ones).xor (ofStreams (squaresFor v.length) r.zeros)
        = .ok sum ∧ sum.xorChoices padded = .ok u := by
  obtain ⟨-, -, -, -, -, hword⟩ := hroom.exists_blank
  have hle := length_le_height v.length
  have hpadding := BitString.wellFormed_clearPadding
    (v := ⟨bs, squaresFor v.length * 128 - v.length⟩) hbs
  have hlength := (BitString.length_clearPadding ⟨bs, squaresFor v.length * 128 - v.length⟩).1
  simp only at hlength
  obtain ⟨padded, happend, hpadded, hbytes, hbits⟩ := BitString.append_eq hv hpadding
    (by rw [hlength]; omega)
  rw [hlength, Nat.add_sub_of_le hle] at hpadded hbytes
  obtain ⟨sum, hsum, hsquares, hsumbits⟩ := BitMatrix.xor_eq
    (m := ofStreams (squaresFor v.length) r.ones) (o := ofStreams (squaresFor v.length) r.zeros)
    (by simp)
  rw [length_ofStreams] at hsquares
  have hheight : sum.height = padded.length := by rw [BitMatrix.height, hsquares, hpadded]
  obtain ⟨u, hu, husquares, hubits⟩ := BitMatrix.xorChoices_eq hheight
  rw [hsquares] at husquares
  refine ⟨padded, sum, u, ⟨husquares, hpadded, hpadded ▸ hbytes, ?_, ?_⟩, happend, hsum, hu⟩
  · intro k hk
    rw [hbits, if_pos hk]
  · intro s i j hs hi hj
    rw [hubits s i j (hsquares ▸ hs) hi hj, hsumbits s i j hi]

/-- Up to the check, the receiver draws its padding and sends the correction for it. -/
theorem start_prepare (l : LinkEnd) (hphase : r.phase = .expand) (hzeros : r.zeros.length = 128)
    (hones : r.ones.length = 128) (hv : v.WellFormed) (hroom : HasRoom v.length) :
    ∃ next, (prepare l v).start r = .draw (paddingFor v.length) next ∧
      ∀ bs : Bytes, bs.length = paddingFor v.length → ∃ padded u, r.Correction v padded u ∧
        next bs = .send l.address (BitMatrix.wire.encode u)
          ((do transpose; check l : Session Receiver Unit).start (r.tied v.length padded)) := by
  have hheight : (ofStreams (squaresFor v.length) r.zeros).height = squaresFor v.length * 128 := by
    rw [BitMatrix.height, length_ofStreams]
  rw [prepare, start_bind_of_done (start_expand hphase hzeros hones hroom), correlate]
  simp only [bind_assoc]
  rw [start_bind_of_done (start_get _), expanded, BitMatrix.checkLength_self,
    start_bind_of_done (start_check_ok () _),
    start_bind_of_done (start_advance _ .transpose (show _ = Phase.correlate from rfl)),
    start_pad_bind rfl (by rw [hheight]; exact length_le_height _)]
  refine ⟨_, by rw [hheight]; rfl, ?_⟩
  intro bs hbs
  obtain ⟨padded, sum, u, hcorrection, happend, hsum, hu⟩ := r.exists_correction hv hroom hbs
  refine ⟨padded, u, hcorrection, ?_⟩
  simp only [happend]
  rw [start_bind, start_tie l hsum hu]
  rfl

theorem start_transpose (hphase : r.phase = .transpose) :
    transpose.start r
      = .done (.ok (), { r with phase := .check, matrix := r.matrix.transpose }) := by
  rw [transpose, start_bind_of_done (start_advance r .check hphase)]
  rfl

/-- What is left of the check once the matrix is transposed. -/
theorem start_transpose_check (r : Receiver) (l : LinkEnd) (n : Nat) (padded : BitString) :
    (do transpose; check l).start (r.tied n padded)
      = if r.passive then .done (.ok (), r.checked n padded)
        else (do
          let chi ← challenges l (r.checked n padded).matrix.height
          l.send answerWire (combineChoices padded.bits chi,
            combineRows (r.checked n padded).matrix.rows chi) :
            Session Receiver Unit).start (r.checked n padded) := by
  rw [start_bind_of_done (start_transpose (show _ = Phase.transpose from rfl)), check,
    start_bind_of_done (start_advance _ .hash (show _ = Phase.check from rfl)),
    start_bind_of_done (start_get _)]
  cases hpassive : r.passive with
  | true => simp [tied, expanded, checked, hpassive]
  | false =>
    simp [tied, expanded, checked, hpassive]

theorem start_hash (hphase : r.phase = .hash) (hsize : r.size ≤ r.matrix.height) :
    hash.start r = .done (.ok (TweakedHash.hashFrom r.counter (r.matrix.rows.take r.size)),
      { r with phase := .expand, counter := r.counter + r.matrix.height, matrix := .empty }) := by
  have hnot : ¬ r.matrix.height < r.size := by omega
  simp [hash, advance, start_bind, hphase, hnot, start_map, Except.map]

end Receiver

namespace Sender

/-- The sender with the matrix of a batch. -/
def expanded (s : Sender) (n : Nat) : Sender :=
  { s with
    phase := .correlate
    size := n
    matrix := ofStreams (squaresFor n) s.streams
    streams := advanced (squaresFor n) s.streams }

/-- The sender that has applied a correction, which gave it the matrix `m`. -/
def corrected (s : Sender) (n : Nat) (m : BitMatrix) : Sender :=
  { s.expanded n with phase := .transpose, matrix := m }

/-- The sender before it hashes the rows of its batch. -/
def checked (s : Sender) (n : Nat) (m : BitMatrix) : Sender :=
  { s.corrected n m with phase := .hash, matrix := m.transpose }

/-- All phases of a batch but the last. -/
def prepare (l : LinkEnd) (n : Nat) : Session Sender Unit := do
  expand n
  correlate l
  transpose
  check l

theorem send_eq (l : LinkEnd) (n : Nat) : send l n = prepare l n >>= fun _ => hash := by
  simp only [send, prepare, bind_assoc]

theorem start_advance (s : Sender) {now : Phase} (next : Phase) (h : s.phase = now) :
    (advance now next).start s = .done (.ok (), { s with phase := next }) := by
  rw [advance, start_bind_of_done (start_get s), if_pos h, start_modify]

variable {s : Sender}

theorem start_expand {n : Nat} (hphase : s.phase = .expand) (hstreams : s.streams.length = 128)
    (hroom : HasRoom n) : (expand n).start s = .done (.ok (), s.expanded n) := by
  obtain ⟨rows, blank, hrows, hblank, hsquares, -⟩ := hroom.exists_blank
  simp [expand, advance, start_bind, hphase, hrows, hblank, BitMatrix.expand_eq, hstreams,
    hsquares, expanded, advanced]

/-- Up to the check, the sender waits for a correction of the right size and applies it. -/
theorem start_prepare {n : Nat} (l : LinkEnd) (hphase : s.phase = .expand)
    (hstreams : s.streams.length = 128) (hroom : HasRoom n) :
    ∃ next, (prepare l n).start s = .recv [l.address] next ∧
      ∀ u : BitMatrix, u.squares.length = squaresFor n → ∃ m : BitMatrix,
        m.squares.length = squaresFor n ∧
        (∀ k i j, i < 128 → m.bitAt k i j
          = ((ofStreams (squaresFor n) s.streams).bitAt k i j ^^ (s.delta.bit i && u.bitAt k i j))) ∧
        next ⟨0, Nat.zero_lt_one⟩ (some (BitMatrix.wire.encode u))
          = (do transpose; check l : Session Sender Unit).start (s.corrected n m) := by
  obtain ⟨-, -, -, -, -, hword⟩ := hroom.exists_blank
  rw [prepare, start_bind_of_done (start_expand hphase hstreams hroom), correlate]
  simp only [bind_assoc]
  rw [start_bind_of_done (start_advance _ .transpose (show _ = Phase.correlate from rfl)), LinkEnd.start_recv_bind]
  refine ⟨_, rfl, ?_⟩
  intro u hu
  obtain ⟨m, hm, hsquares, hbits⟩ := BitMatrix.addWhere_eq
    (m := ofStreams (squaresFor n) s.streams) (o := u) s.delta (by rw [length_ofStreams, hu])
  rw [length_ofStreams] at hsquares
  refine ⟨m, hsquares, hbits, ?_⟩
  have hheight : checkLength (ofStreams (squaresFor n) s.streams).height u.height = .ok () := by
    rw [BitMatrix.height, BitMatrix.height, length_ofStreams, hu, BitMatrix.checkLength_self]
  rw [LinkEnd.got_encode (BitMatrix.carries_wire (by rw [hu]; omega)),
    start_bind_of_done (start_get _), expanded, hheight,
    start_bind_of_done (start_check_ok () _), hm,
    start_bind_of_done (start_check_ok m _),
    start_bind_of_done (start_modify _ _)]
  rfl

theorem start_transpose (hphase : s.phase = .transpose) :
    transpose.start s
      = .done (.ok (), { s with phase := .check, matrix := s.matrix.transpose }) := by
  rw [transpose, start_bind_of_done (start_advance s .check hphase)]
  rfl

/-- What is left of the check once the matrix is transposed. -/
theorem start_transpose_check (s : Sender) (l : LinkEnd) (n : Nat) (m : BitMatrix) :
    (do transpose; check l).start (s.corrected n m)
      = if s.passive then .done (.ok (), s.checked n m)
        else (do
          let chi ← challenges l m.transpose.height
          let (x, t) ← l.recv "KOS_check" answerWire
          if addWide (combineRows m.transpose.rows chi) (x.clmul s.delta) = t then pure ()
          else Session.fail (.cheat .correlation) : Session Sender Unit).start (s.checked n m) := by
  rw [start_bind_of_done (start_transpose (show _ = Phase.transpose from rfl)), check,
    start_bind_of_done (start_advance _ .hash (show _ = Phase.check from rfl)),
    start_bind_of_done (start_get _)]
  cases hpassive : s.passive with
  | true => simp [corrected, expanded, checked, hpassive]
  | false => 
    simp [corrected, expanded, checked, hpassive]

theorem start_hash (hphase : s.phase = .hash) (hsize : s.size ≤ s.matrix.height) :
    hash.start s = .done (.ok ((TweakedHash.hashFrom s.counter (s.matrix.rows.take s.size)).zip
        (TweakedHash.hashFrom s.counter ((s.matrix.rows.take s.size).map (· ^^^ s.delta)))),
      { s with phase := .expand, counter := s.counter + s.matrix.height, matrix := .empty }) := by
  have hnot : ¬ s.matrix.height < s.size := by omega
  simp [hash, advance, start_bind, hphase, hnot, start_map, Except.map]

end Sender

end Beaver.Transfer
