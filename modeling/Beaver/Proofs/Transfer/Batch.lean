import Beaver.Proofs.Hashing
import Beaver.Proofs.Transfer.Correlation
import Beaver.Proofs.Transfer.Phases

/-!
# One batch of extended transfers

Both ends of a batch, side by side.  Before hashing, the rows of the two ends are
correlated, up to the error that was added to the correction on its way
(`Paired.start_prepare`).  The check decides about the errors alone
(`Correlated.meets_check`), and without errors the receiver gets the chosen one of the
sender's two blocks (`Paired.meets_batch`).
-/

namespace Beaver.Transfer

open List
open BitMatrix (ofStreams length_ofStreams)

/-- The challenges that two seeds give. -/
def tossed (seed seed' : Bytes) (n : Nat) : List Block :=
  ((Keystream.ofSeed (Block.ofBytes ((CoinStream.ofSeed (Bytes.xor seed seed')).takeBytes 16).1)).blocks n).1

/-- Challenge number `k`. -/
def challengeAt (seed seed' : Bytes) (n k : Nat) : Block :=
  ((tossed seed seed' n)[k]?).getD .zero

theorem tossed_eq_map (seed seed' : Bytes) (n : Nat) :
    tossed seed seed' n = (range n).map (challengeAt seed seed' n) := by
  apply ext_getElem?
  intro k
  have hlength : (tossed seed seed' n).length = n := Keystream.length_blocks n _
  by_cases hk : k < n
  · rw [getElem?_map, getElem?_range hk, Option.map_some, challengeAt,
      getElem?_eq_getElem (by omega)]
    rfl
  · rw [getElem?_eq_none (by omega), getElem?_eq_none (by simpa using hk)]

/-- **Both ends toss the same challenges.** -/
theorem Meets.challenges {σ τ α β : Type} {i j : Nat} {l l' : LinkEnd} {t u : Tape} {t₁ : σ} {t₂ : τ}
    {post : Except Failure α × σ → Except Failure β × τ → Tape → Tape → Prop}
    (hl : LinkEnd.Joined i j l l') (n : Nat) {f : List Block → Session σ α}
    {g : List Block → Session τ β}
    (h : Meets i j post ((f (tossed (t.next 32) (u.next 32) n)).start t₁)
      ((g (tossed (t.next 32) (u.next 32) n)).start t₂) [] [] t.tail.tail u.tail.tail) :
    Meets i j post ((Transfer.challenges l n >>= f).start t₁) ((Transfer.challenges l' n >>= g).start t₂)
      [] [] t u := by
  rw [Transfer.challenges, Transfer.challenges]
  simp only [bind_assoc, pure_bind]
  exact Meets.pairwise hl h

theorem carries_answer (a : Block × Block × Block) : answerWire.Carries a :=
  .pair (Wire.carries_block _) (.pair (Wire.carries_block _) (Wire.carries_block _))

/-- What the errors of the rows, each times its challenge, add up to. -/
def errorSum (delta : Block) (error : BitMatrix) (n : Nat) (chi : List Block) : Block × Block :=
  combineRows ((range n).map fun k => delta &&& error.transpose.rowAt k) chi

/-- What the check makes of that sum. -/
def verdict (passive : Bool) (sum : Block × Block) : Except Failure Unit :=
  if passive = true ∨ sum = (.zero, .zero) then .ok () else .error (.error (.cheat .correlation))

/-- The two ends between batches. -/
structure Paired (r : Receiver) (s : Sender) : Prop where
  passive : r.passive = s.passive
  receiving : r.phase = .expand
  sending : s.phase = .expand
  counter : r.counter = s.counter
  zeros : r.zeros.length = 128
  ones : r.ones.length = 128
  streams : s.streams.length = 128
  chosen : ∀ i < 128, s.streams[i]? = if s.delta.bit i then r.ones[i]? else r.zeros[i]?

/-- **The rows before hashing.**  Row `k` of the sender is row `k` of the receiver, plus
`delta` if choice bit `k` is set, plus what `delta` selects of the error in the
correction. -/
structure Correlated (r : Receiver) (s : Sender) (v : BitString) (error : BitMatrix)
    (padded : BitString) (m : BitMatrix) : Prop where
  length_squares : m.squares.length = squaresFor v.length
  length_padded : padded.length = squaresFor v.length * 128
  length_bytes : padded.bytes.length = BitString.bytesFor padded.length
  chosen : ∀ k < v.length, padded.bytes.bit k = v.bytes.bit k
  rows : ∀ k < squaresFor v.length * 128,
    m.transpose.rowAt k = (ofStreams (squaresFor v.length) r.zeros).transpose.rowAt k
      ^^^ s.delta.scale (padded.bytes.bit k) ^^^ (s.delta &&& error.transpose.rowAt k)

variable {r : Receiver} {s : Sender} {v padded : BitString} {error m : BitMatrix}
variable {i j : Nat} {l l' : LinkEnd}

/-- **Both ends up to the check.**  The receiver draws its padding and sends a correction;
whatever error is added to it on its way, the rows are correlated up to that error. -/
theorem Paired.start_prepare (h : Paired r s) (l l' : LinkEnd) (hv : v.WellFormed)
    (hroom : HasRoom v.length) :
    ∃ next next', (Receiver.prepare l v).start r = .draw (paddingFor v.length) next ∧
      (Sender.prepare l' v.length).start s = .recv [l'.address] next' ∧
      ∀ bs : Bytes, bs.length = paddingFor v.length → ∃ padded u,
        u.squares.length = squaresFor v.length ∧
        next bs = .send l.address (BitMatrix.wire.encode u)
          ((do Receiver.transpose; Receiver.check l).start (r.tied v.length padded)) ∧
        ∀ error sent : BitMatrix, error.squares.length = squaresFor v.length →
          sent.squares.length = squaresFor v.length →
          (∀ k i j, i < 128 → sent.bitAt k i j = (u.bitAt k i j ^^ error.bitAt k i j)) →
          ∃ m, Correlated r s v error padded m ∧
            next' ⟨0, Nat.zero_lt_one⟩ (some (BitMatrix.wire.encode sent))
              = (do Sender.transpose; Sender.check l').start (s.corrected v.length m) := by
  obtain ⟨next, hnext, hsends⟩ := Receiver.start_prepare l h.receiving h.zeros h.ones hv hroom
  obtain ⟨next', hnext', happlies⟩ := Sender.start_prepare l' h.sending h.streams hroom
  refine ⟨next, next', hnext, hnext', fun bs hbs => ?_⟩
  obtain ⟨padded, u, hu, hsend⟩ := hsends bs hbs
  refine ⟨padded, u, hu.length_squares, hsend, fun error sent herror hlength hsent => ?_⟩
  obtain ⟨m, hm, hbits, hgot⟩ := happlies sent hlength
  refine ⟨m, ⟨hm, hu.length_padded, hu.length_bytes, hu.chosen, fun k hk => ?_⟩, hgot⟩
  exact BitMatrix.row_correlated (length_ofStreams _ _) herror hm
    (fun k i j hk hi => BitMatrix.bitAt_ofStreams_chosen h.zeros h.ones h.chosen hk hi j)
    hu.tied hsent hbits hk

/-- **The check decides about the errors alone.** -/
theorem Correlated.meets_check (hc : Correlated r s v error padded m) (hl : LinkEnd.Joined i j l l')
    (hpassive : r.passive = s.passive) (t u : Tape) :
    Meets i j (fun a b _ _ => a = (.ok (), r.checked v.length padded) ∧
        b = (verdict s.passive (errorSum s.delta error (squaresFor v.length * 128)
          (tossed (t.next 32) (u.next 32) (squaresFor v.length * 128))), s.checked v.length m))
      ((do Receiver.transpose; Receiver.check l).start (r.tied v.length padded))
      ((do Sender.transpose; Sender.check l').start (s.corrected v.length m)) [] [] t u := by
  have hheight : (r.checked v.length padded).matrix.height = squaresFor v.length * 128 := by
    rw [Receiver.checked, BitMatrix.height_transpose, BitMatrix.height, length_ofStreams]
  have hheight' : m.transpose.height = squaresFor v.length * 128 := by
    rw [BitMatrix.height_transpose, BitMatrix.height, hc.length_squares]
  rw [Receiver.start_transpose_check, Sender.start_transpose_check, hpassive, hheight, hheight']
  cases s.passive with
  | true => exact .done ⟨rfl, rfl⟩
  | false =>
    apply Meets.challenges hl
    rw [← bind_pure (l.send _ _)]
    refine .send_recv hl (carries_answer _) ?_
    rw [tossed_eq_map, BitString.bits_eq_map (Nat.le_of_eq hc.length_bytes.symm), hc.length_padded,
      BitMatrix.rows_eq_map, BitMatrix.rows_eq_map, hheight, hheight']
    have hiff := check_iff (t := (r.checked v.length padded).matrix.rowAt)
      (challengeAt (t.next 32) (u.next 32) (squaresFor v.length * 128))
      fun k hk => hc.rows k (mem_range.mp hk)
    rw [errorSum, verdict]
    dsimp only
    by_cases hsum : combineRows
        ((range (squaresFor v.length * 128)).map fun k => s.delta &&& error.transpose.rowAt k)
        ((range (squaresFor v.length * 128)).map
          (challengeAt (t.next 32) (u.next 32) (squaresFor v.length * 128))) = (.zero, .zero)
    · rw [if_pos (hiff.mpr hsum), if_pos (.inr hsum)]
      exact .done ⟨rfl, rfl⟩
    · rw [if_neg (mt hiff.mp hsum), if_neg (by simp [hsum])]
      exact .done ⟨rfl, rfl⟩

/-- The blocks that the receiver gets. -/
def receivedBlocks (counter : Nat) (zeros : List Keystream) (n : Nat) : List Block :=
  TweakedHash.hashFrom counter ((range n).map (ofStreams (squaresFor n) zeros).transpose.rowAt)

/-- The pairs of blocks that the sender gets.  They depend on the receiver's choices, since
the sender's rows do, but on nothing else that is private to a batch. -/
def sentBlocks (counter : Nat) (zeros : List Keystream) (delta : Block) (v : BitString) :
    List (Block × Block) :=
  let rows := (range v.length).map fun k =>
    (ofStreams (squaresFor v.length) zeros).transpose.rowAt k ^^^ delta.scale (v.bytes.bit k)
  (TweakedHash.hashFrom counter rows).zip (TweakedHash.hashFrom counter (rows.map (· ^^^ delta)))

/-- The receiver has the chosen one of the sender's two blocks, for every transfer. -/
structure Transferred (v : BitString) (received : List Block) (sent : List (Block × Block)) :
    Prop where
  length_received : received.length = v.length
  length_sent : sent.length = v.length
  chosen : ∀ (k : Nat) (c : Bool) (p : Block × Block), v.bits[k]? = some c → sent[k]? = some p →
    received[k]? = some (if c then p.2 else p.1)

/-- What was received is what was chosen from what was sent. -/
theorem Transferred.received_eq {received : List Block} {sent : List (Block × Block)}
    (h : Transferred v received sent) (hv : v.WellFormed) : received = chosenKeys sent v.bits := by
  have hsent := h.length_sent
  have hreceived := h.length_received
  refine ext_getElem (by simp [chosenKeys, hsent, hreceived]) fun k hk _ => ?_
  have hk' : k < v.bits.length := by
    rw [BitString.bits_eq_map (Nat.le_of_eq hv.length_bytes.symm), length_map, length_range]
    omega
  have hchosen := h.chosen k _ _ (getElem?_eq_getElem hk') (getElem?_eq_getElem (by omega))
  rw [getElem?_eq_getElem hk, Option.some_inj] at hchosen
  simp [chosenKeys, hchosen, hk']

theorem transferred_blocks (counter : Nat) (zeros : List Keystream) (delta : Block)
    (hv : v.WellFormed) :
    Transferred v (receivedBlocks counter zeros v.length) (sentBlocks counter zeros delta v) where
  length_received := by simp [receivedBlocks]
  length_sent := by simp [sentBlocks]
  chosen k c p hc hp := by
    have hk : k < v.length := by
      have hlt := (List.getElem?_eq_some_iff.mp hc).1
      rw [BitString.bits_eq_map (Nat.le_of_eq hv.length_bytes.symm), length_map,
        length_range] at hlt
      exact hlt
    have hbit : v.bytes.bit k = c := by
      rw [← BitString.getElem?_bits hv, hc]
      rfl
    rw [sentBlocks, getElem?_zip_eq_some, TweakedHash.getElem?_hashFrom,
      TweakedHash.getElem?_hashFrom] at hp
    simp only [getElem?_map, getElem?_range hk, Option.map_some, Option.some.injEq, hbit] at hp
    rw [receivedBlocks, TweakedHash.getElem?_hashFrom, getElem?_map, getElem?_range hk]
    cases c with
    | false =>
      have hrow : ∀ b : Block, b ^^^ delta.scale false = b := fun b => b.xor_zero
      rw [← hp.1, hrow]
      rfl
    | true =>
      have hrow : ∀ b : Block, b ^^^ delta.scale true ^^^ delta = b := fun b => by
        rw [Block.scale, if_pos rfl, Block.xor_assoc, Block.xor_self, Block.xor_zero]
      rw [← hp.2, hrow]
      rfl

theorem take_rows {m : BitMatrix} {n : Nat} (hn : n ≤ m.height) :
    m.rows.take n = (range n).map m.rowAt := by
  rw [BitMatrix.rows_eq_map, ← map_take, take_range, Nat.min_eq_left hn]

/-- Without errors where `delta` looks, the sender's rows are those of `sentBlocks`. -/
theorem Correlated.take_rows (hc : Correlated r s v error padded m)
    (herror : ∀ k < squaresFor v.length * 128, s.delta &&& error.transpose.rowAt k = .zero) :
    m.transpose.rows.take v.length = (range v.length).map fun k =>
      (ofStreams (squaresFor v.length) r.zeros).transpose.rowAt k ^^^ s.delta.scale (v.bytes.bit k) := by
  have hheight : m.transpose.height = squaresFor v.length * 128 := by
    rw [BitMatrix.height_transpose, BitMatrix.height, hc.length_squares]
  have hle := length_le_height v.length
  rw [Transfer.take_rows (hheight ▸ hle)]
  apply map_congr_left
  intro k hk
  have hk := mem_range.mp hk
  rw [hc.rows k (by omega), hc.chosen k hk, herror k (by omega), Block.xor_zero]

/-- The receiver after a batch. -/
def Receiver.after (r : Receiver) (n : Nat) (padded : BitString) : Receiver :=
  { r.checked n padded with
    phase := .expand
    counter := r.counter + squaresFor n * 128
    matrix := .empty }

/-- The sender after a batch. -/
def Sender.after (s : Sender) (n : Nat) : Sender :=
  { s.expanded n with
    phase := .expand
    counter := s.counter + squaresFor n * 128
    matrix := .empty }

/-- The two ends stay paired from batch to batch. -/
theorem Paired.after (h : Paired r s) (n : Nat) (padded : BitString) :
    Paired (r.after n padded) (s.after n) where
  passive := h.passive
  receiving := rfl
  sending := rfl
  counter := congrArg (· + squaresFor n * 128) h.counter
  zeros := by simp [Receiver.after, Receiver.checked, Receiver.tied, Receiver.expanded, advanced, h.zeros]
  ones := by simp [Receiver.after, Receiver.checked, Receiver.tied, Receiver.expanded, advanced, h.ones]
  streams := by simp [Sender.after, Sender.expanded, advanced, h.streams]
  chosen k hk := by
    have hchosen := h.chosen k hk
    simp only [Sender.after, Sender.expanded, Receiver.after, Receiver.checked, Receiver.tied,
      Receiver.expanded, advanced, getElem?_map, hchosen]
    split <;> rfl

theorem Receiver.start_hash_checked (r : Receiver) (n : Nat) (padded : BitString) :
    hash.start (r.checked n padded)
      = .done (.ok (receivedBlocks r.counter r.zeros n), r.after n padded) := by
  have hheight : (r.checked n padded).matrix.height = squaresFor n * 128 := by
    rw [Receiver.checked, BitMatrix.height_transpose, BitMatrix.height, length_ofStreams]
  have hsize : (r.checked n padded).size ≤ (r.checked n padded).matrix.height := by
    rw [hheight]
    exact length_le_height n
  rw [start_hash rfl hsize, take_rows hsize, hheight]
  rfl

/-- The sender hashes its rows, which are those of `sentBlocks` without errors where `delta`
looks. -/
theorem Correlated.start_hash (hc : Correlated r s v error padded m)
    (hcounter : r.counter = s.counter) :
    ∃ sent, Sender.hash.start (s.checked v.length m) = .done (.ok sent, s.after v.length) ∧
      ((∀ k < squaresFor v.length * 128, s.delta &&& error.transpose.rowAt k = .zero) →
        sent = sentBlocks r.counter r.zeros s.delta v) := by
  have hheight : m.transpose.height = squaresFor v.length * 128 := by
    rw [BitMatrix.height_transpose, BitMatrix.height, hc.length_squares]
  have hsize : (s.checked v.length m).size ≤ (s.checked v.length m).matrix.height :=
    Nat.le_trans (length_le_height v.length) (Nat.le_of_eq hheight.symm)
  rw [Sender.start_hash rfl hsize]
  refine ⟨_, by simp only [Sender.checked, hheight]; rfl, fun herror => ?_⟩
  simp only [Sender.corrected, Sender.expanded, hc.take_rows herror, sentBlocks, hcounter]

theorem bitAt_zeros (n k i j : Nat) (hi : i < 128) : (BitMatrix.zeros n).bitAt k i j = false := by
  rw [BitMatrix.bitAt, BitMatrix.zeros, getElem?_replicate]
  split <;> simp [Square.bitAt, Square.zero, hi]

/-- Nothing is selected of a matrix without errors. -/
theorem and_rowAt_zeros (delta : Block) {n k : Nat} (hk : k < n * 128) :
    delta &&& (BitMatrix.zeros (n * 128)).transpose.rowAt k = .zero := by
  obtain ⟨s, i, hi, rfl⟩ : ∃ s i, i < 128 ∧ k = 128 * s + i :=
    ⟨k / 128, k % 128, Nat.mod_lt _ (by omega), (Nat.div_add_mod _ _).symm⟩
  have hs : s < (BitMatrix.zeros (n * 128)).squares.length := by
    rw [BitMatrix.zeros, length_replicate]
    omega
  apply Block.ext_bit
  intro j hj
  rw [Block.bit_and, BitMatrix.bit_rowAt _ _ hi, BitMatrix.bitAt_transpose _ hs hi hj,
    bitAt_zeros _ _ _ _ hj, Bool.and_false, Block.bit_zero]

/-- **An honest batch up to hashing** leaves correlated rows, and the check accepts. -/
theorem Paired.meets_prepare (h : Paired r s) (hl : LinkEnd.Joined i j l l') (hv : v.WellFormed)
    (hroom : HasRoom v.length) (t u : Tape) :
    Meets i j (fun a b _ _ => ∃ padded m,
        Correlated r s v (BitMatrix.zeros (squaresFor v.length * 128)) padded m ∧
        a = (.ok (), r.checked v.length padded) ∧ b = (.ok (), s.checked v.length m))
      ((Receiver.prepare l v).start r) ((Sender.prepare l' v.length).start s) [] [] t u := by
  have hzeros : (BitMatrix.zeros (squaresFor v.length * 128)).squares.length
      = squaresFor v.length := by
    rw [BitMatrix.zeros, length_replicate]
    omega
  obtain ⟨next, next', hreceiver, hsender, hprepare⟩ := h.start_prepare l l' hv hroom
  obtain ⟨padded, w, hw, hsend, happly⟩ := hprepare (t.next _) (t.length_next _)
  obtain ⟨m, hc, hgot⟩ := happly (BitMatrix.zeros (squaresFor v.length * 128)) w hzeros hw
    fun k i j hi => by rw [bitAt_zeros _ _ _ _ hi, Bool.xor_false]
  rw [hreceiver, hsender, hl.address']
  refine .drawLeft ?_
  rw [hsend, hl.address]
  refine .sendLeft (.recvRight ?_)
  rw [hgot]
  refine (hc.meets_check hl h.passive t.tail u).mono fun a b _ _ hab => ⟨padded, m, hc, hab.1, ?_⟩
  rw [hab.2, errorSum, tossed_eq_map,
    combineRows_eq_zero _ fun k hk => and_rowAt_zeros s.delta (mem_range.mp hk),
    verdict, if_pos (.inr rfl)]

/-- **An honest batch.**  Both ends get their blocks, whatever the padding and the tossed
coins are, and stay paired. -/
theorem Paired.meets_batch (h : Paired r s) (hl : LinkEnd.Joined i j l l') (hv : v.WellFormed)
    (hroom : HasRoom v.length) (t u : Tape) :
    Meets i j (fun a b _ _ => ∃ padded,
        a = (.ok (receivedBlocks r.counter r.zeros v.length), r.after v.length padded) ∧
        b = (.ok (sentBlocks r.counter r.zeros s.delta v), s.after v.length))
      ((Receiver.receive l v).start r) ((Sender.send l' v.length).start s) [] [] t u := by
  rw [Receiver.receive_eq, Sender.send_eq, Session.start_bind, Session.start_bind]
  refine (h.meets_prepare hl hv hroom t u).bind ?_
  rintro _ _ t u ⟨padded, m, hc, rfl, rfl⟩
  obtain ⟨sent, hhash, hsent⟩ := hc.start_hash h.counter
  rw [Session.resume_ok, Session.resume_ok, r.start_hash_checked, hhash,
    hsent fun k hk => and_rowAt_zeros s.delta hk]
  exact .done ⟨padded, rfl, rfl⟩

end Beaver.Transfer
