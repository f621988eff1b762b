import Beaver.Proofs.NetworkRun
import Beaver.Proofs.Transfer.Batch

/-!
# Sessions of a transfer extension

The two ends stay paired from the base transfers on, so every batch of a session goes the
same way (`Paired.meets_session`).  On a network this says that honest sessions end, with
the chosen blocks at the receiver, whatever padding is drawn and whatever coins are
tossed; and it says exactly which changes of a correction the check finds.
-/

namespace Beaver.Transfer

open Session (resume_ok start_bind)
open List
open BitMatrix (ofStreams length_ofStreams)

variable {r : Receiver} {s : Sender} {v : BitString} {i j : Nat} {l l' : LinkEnd}
variable {k n : Nat} {delta : Block} {batches : List BitString} {error : BitMatrix}
variable {seed seed' : Bytes}

/-- The first block of a string has its first bits. -/
theorem bit_block (v : BitString) (hk : k < 128) :
    ((v.block? 0).getD .zero).bit k = v.bytes.bit k := by
  have hblock : v.block? 0 = some (Block.ofBytes
      (v.bytes.take 16 ++ replicate (16 - (v.bytes.take 16).length) 0)) := rfl
  rw [hblock, Option.getD_some, Block.bit_ofBytes _ hk, Bytes.bit_append]
  split
  · exact Bytes.bit_take (by omega)
  · next hge =>
      rw [length_take] at hge
      rw [Bytes.bit_replicate_zero, Bytes.bit_of_length_le (by omega)]

/-- The seeds of the base transfers pair the two ends. -/
theorem paired_ofSeeds {seeds : List (Keystream × Keystream)} {delta : BitString}
    (hseeds : seeds.length = 128) (hdelta : delta.length = 128) (passive : Bool) :
    ∃ r s, Receiver.ofSeeds seeds passive = .ok r ∧
      Sender.ofSeeds delta (chosenKeys seeds delta.bits) passive = .ok s ∧ Paired r s ∧
      s.passive = passive := by
  have hchosen : (chosenKeys seeds delta.bits).length = 128 := by simp [chosenKeys, hseeds]
  refine ⟨_, _, by rw [Receiver.ofSeeds, hseeds, BitMatrix.checkLength_self]; rfl,
    by rw [Sender.ofSeeds, hdelta, hchosen, BitMatrix.checkLength_self]; rfl, ?_⟩
  refine ⟨⟨rfl, rfl, rfl, rfl, by simp [hseeds], by simp [hseeds], hchosen, ?_⟩, rfl⟩
  intro i hi
  have hget : seeds[i]? = some seeds[i] := getElem?_eq_getElem (by omega)
  rw [bit_block delta hi, chosenKeys]
  simp only [getElem?_map, getElem?_zipIdx, hget, Option.map_some, Nat.zero_add,
    BitString.getD_bits, hdelta, decide_eq_true hi, Bool.true_and]
  cases delta.bytes.bit i with
  | false => rfl
  | true => rfl

/-- Receives batches one after the other. -/
def Receiver.receiveAll (l : LinkEnd) (batches : List BitString) :
    Session Receiver (List (List Block)) :=
  batches.mapM (receive l)

/-- Sends batches of the given sizes one after the other. -/
def Sender.sendAll (l : LinkEnd) (sizes : List Nat) : Session Sender (List (List (Block × Block))) :=
  sizes.mapM (send l)

/-- What the receiver gets in a session. -/
def receivedIn (counter : Nat) (zeros : List Keystream) : List BitString → List (List Block)
  | [] => []
  | v :: vs => receivedBlocks counter zeros v.length
      :: receivedIn (counter + squaresFor v.length * 128) (advanced (squaresFor v.length) zeros) vs

/-- What the sender gets in a session. -/
def sentIn (counter : Nat) (zeros : List Keystream) (delta : Block) :
    List BitString → List (List (Block × Block))
  | [] => []
  | v :: vs => sentBlocks counter zeros delta v
      :: sentIn (counter + squaresFor v.length * 128) (advanced (squaresFor v.length) zeros) delta vs

theorem length_receivedIn (counter : Nat) (zeros : List Keystream) (batches : List BitString) :
    (receivedIn counter zeros batches).length = batches.length := by
  induction batches generalizing counter zeros with
  | nil => rfl
  | cons v vs ih => rw [receivedIn, length_cons, ih, length_cons]

theorem length_sentIn (counter : Nat) (zeros : List Keystream) (delta : Block)
    (batches : List BitString) : (sentIn counter zeros delta batches).length = batches.length := by
  induction batches generalizing counter zeros with
  | nil => rfl
  | cons v vs ih => rw [sentIn, length_cons, ih, length_cons]

/-- In every batch of a session the receiver has the chosen blocks. -/
theorem transferred_in {counter : Nat} {zeros : List Keystream}
    (hbatches : ∀ v ∈ batches, v.WellFormed ∧ HasRoom v.length) {v : BitString}
    {received : List Block} {sent : List (Block × Block)} (hv : batches[k]? = some v)
    (hreceived : (receivedIn counter zeros batches)[k]? = some received)
    (hsent : (sentIn counter zeros delta batches)[k]? = some sent) : Transferred v received sent := by
  induction batches generalizing counter zeros k with
  | nil => cases hv
  | cons w vs ih =>
    cases k with
    | zero =>
      cases hv
      cases hreceived
      cases hsent
      exact transferred_blocks counter zeros delta (hbatches _ mem_cons_self).1
    | succ k =>
      exact ih (fun v hmem => hbatches v (mem_cons_of_mem w hmem)) hv hreceived hsent

/-- **Honest batches follow each other.**  The induction is on the batches: each one leaves
the two ends paired, with counters and streams that depend on the sizes alone. -/
theorem Paired.meets_session (h : Paired r s) (hl : LinkEnd.Joined i j l l')
    (hbatches : ∀ v ∈ batches, v.WellFormed ∧ HasRoom v.length) (t u : Tape) :
    Meets i j (fun a b _ _ => ∃ r' s', a = (.ok (receivedIn r.counter r.zeros batches), r') ∧
        b = (.ok (sentIn r.counter r.zeros s.delta batches), s') ∧ Paired r' s' ∧
        s'.delta = s.delta ∧ s'.passive = s.passive)
      ((Receiver.receiveAll l batches).start r)
      ((Sender.sendAll l' (batches.map BitString.length)).start s) [] [] t u := by
  induction batches generalizing r s t u with
  | nil => exact .done ⟨r, s, rfl, rfl, h, rfl, rfl⟩
  | cons v vs ih =>
    have hv := hbatches v mem_cons_self
    rw [Receiver.receiveAll, Sender.sendAll, map_cons, mapM_cons, mapM_cons,
      start_bind, start_bind]
    refine (h.meets_batch hl hv.1 hv.2 t u).bind ?_
    rintro _ _ t u ⟨padded, rfl, rfl⟩
    rw [resume_ok, resume_ok, start_bind, start_bind]
    refine (ih (h.after v.length padded)
      (fun w hw => hbatches w (mem_cons_of_mem v hw)) t u).bind ?_
    rintro _ _ t u ⟨r', s', rfl, rfl, hpaired, hdelta, hpassive⟩
    exact .done ⟨r', s', rfl, rfl, hpaired, hdelta, hpassive⟩

/-- The two ends before they hash a batch: row `k` of the sender is row `k` of the
receiver, plus `delta` if choice bit `k` is set.  This goes for all rows, those of the
padding included. -/
structure Aligned (delta : Block) (v : BitString) (r : Receiver) (s : Sender) : Prop where
  height_receiver : extendedLength? v.length = some r.matrix.height
  height_sender : extendedLength? v.length = some s.matrix.height
  choices : ∀ k < v.length, r.choices.bits[k]? = v.bits[k]?
  rows : ∀ k < r.matrix.height, ∃ c, r.choices.bits[k]? = some c ∧
    s.matrix.rowAt k = r.matrix.rowAt k ^^^ delta.scale c

theorem extendedLength?_eq (hroom : HasRoom v.length) :
    extendedLength? v.length = some (squaresFor v.length * 128) := by
  obtain ⟨-, -, -, -, -, hword⟩ := hroom.exists_blank
  have hlength : (v.length + 127) / 128 * 128 + checkPadding = squaresFor v.length * 128 := by
    rw [squaresFor, checkPadding]
    omega
  rw [extendedLength?]
  simp only [hlength, Nat.pow_eq, if_pos hword]

theorem Correlated.aligned {padded : BitString} {m : BitMatrix}
    (hc : Correlated r s v (BitMatrix.zeros (squaresFor v.length * 128)) padded m)
    (hv : v.WellFormed) (hroom : HasRoom v.length) :
    Aligned s.delta v (r.checked v.length padded) (s.checked v.length m) := by
  have hle := length_le_height v.length
  have hheight : (r.checked v.length padded).matrix.height = squaresFor v.length * 128 := by
    rw [Receiver.checked, BitMatrix.height_transpose, BitMatrix.height, length_ofStreams]
  have hheight' : (s.checked v.length m).matrix.height = squaresFor v.length * 128 := by
    rw [Sender.checked, BitMatrix.height_transpose, BitMatrix.height, hc.length_squares]
  have hbit : ∀ k < squaresFor v.length * 128, padded.bits[k]? = some (padded.bytes.bit k) := by
    intro k hk
    rw [BitString.bits_eq_map (Nat.le_of_eq hc.length_bytes.symm), hc.length_padded,
      getElem?_map, getElem?_range hk]
    rfl
  refine ⟨hheight ▸ extendedLength?_eq hroom, hheight' ▸ extendedLength?_eq hroom, ?_, ?_⟩
  · intro k hk
    rw [BitString.bits_eq_map (Nat.le_of_eq hv.length_bytes.symm), getElem?_map,
      getElem?_range hk]
    exact (hbit k (by omega)).trans (congrArg some (hc.chosen k hk))
  · intro k hk
    rw [hheight] at hk
    refine ⟨padded.bytes.bit k, hbit k hk, (hc.rows k hk).trans ?_⟩
    rw [and_rowAt_zeros _ hk, Block.xor_zero]
    rfl

/-- After any honest batches, the next one leaves aligned rows before hashing. -/
theorem Paired.meets_prefix (h : Paired r s) (hl : LinkEnd.Joined i j l l')
    {earlier : List BitString} (hearlier : ∀ w ∈ earlier, w.WellFormed ∧ HasRoom w.length)
    (hv : v.WellFormed) (hroom : HasRoom v.length) (t u : Tape) :
    Meets i j (fun a b _ _ => ∃ r' s', a = (Except.ok (), r') ∧ b = (Except.ok (), s') ∧
        Aligned s.delta v r' s')
      ((Receiver.receiveAll l earlier >>= fun _ => Receiver.prepare l v).start r)
      ((Sender.sendAll l' (earlier.map BitString.length) >>= fun _ =>
        Sender.prepare l' v.length).start s) [] [] t u := by
  rw [start_bind, start_bind]
  refine (h.meets_session hl hearlier t u).bind ?_
  rintro _ _ t u ⟨r', s', rfl, rfl, hpaired, hdelta, -⟩
  rw [resume_ok, resume_ok]
  refine (hpaired.meets_prepare hl hv hroom t u).mono ?_
  rintro _ _ t u ⟨padded, m, hc, rfl, rfl⟩
  exact ⟨_, _, rfl, rfl, hdelta ▸ hc.aligned hv hroom⟩

/-- **A session of honest batches.**  From 128 base transfers, batches of any sizes that
memory has room for succeed, whatever coins the two ends have.  What they get does not
depend on the coins, so neither on the padding nor on the tossed challenges: for every
transfer the receiver has the chosen one of the sender's two blocks.  Before a batch is
hashed, the rows of the two ends are aligned. -/
theorem session_transfers (seeds : List (Keystream × Keystream)) (delta : BitString)
    (hseeds : seeds.length = 128) (hdelta : delta.length = 128) (passive : Bool)
    (hl : LinkEnd.Joined 0 1 l l') {batches : List BitString}
    (hbatches : ∀ v ∈ batches, v.WellFormed ∧ HasRoom v.length) :
    ∃ r s, Receiver.ofSeeds seeds passive = .ok r ∧
      Sender.ofSeeds delta (chosenKeys seeds delta.bits) passive = .ok s ∧
      ∃ received sent, received.length = batches.length ∧ sent.length = batches.length ∧
        (∀ (k : Nat) v ks ps, batches[k]? = some v → received[k]? = some ks → sent[k]? = some ps →
          Transferred v ks ps) ∧
        ∀ c d : Coins,
          (∃ r' s' net, (Network.ofCoins [c, d]).runPair .honest
              ((Receiver.receiveAll l batches).start r)
              ((Sender.sendAll l' (batches.map BitString.length)).start s)
            = (some (.ok received, r'), some (.ok sent, s'), net)) ∧
          ∀ (earlier : List BitString) v later, batches = earlier ++ v :: later →
            ∃ r' s' net, (Network.ofCoins [c, d]).runPair .honest
                ((Receiver.receiveAll l earlier >>= fun _ => Receiver.prepare l v).start r)
                ((Sender.sendAll l' (earlier.map BitString.length) >>= fun _ =>
                  Sender.prepare l' v.length).start s)
              = (some (.ok (), r'), some (.ok (), s'), net) ∧ Aligned s.delta v r' s' := by
  obtain ⟨r, s, hr, hs, hpaired, -⟩ := paired_ofSeeds hseeds hdelta passive
  refine ⟨r, s, hr, hs, receivedIn r.counter r.zeros batches,
    sentIn r.counter r.zeros s.delta batches, length_receivedIn _ _ _, length_sentIn _ _ _ _,
    fun k v ks ps hv hks hps => transferred_in hbatches hv hks hps, fun c d => ⟨?_, ?_⟩⟩
  · obtain ⟨_, _, _, _, net, ⟨r', s', rfl, rfl, -⟩, hrun⟩ :=
      Network.runPair_honest (hpaired.meets_session hl hbatches c.tape d.tape)
    exact ⟨r', s', net, hrun⟩
  · rintro earlier v later rfl
    have hv := hbatches v (mem_append_right _ mem_cons_self)
    have hprepare := hpaired.meets_prefix hl
      (fun w hw => hbatches w (mem_append_left _ hw)) hv.1 hv.2 c.tape d.tape
    obtain ⟨_, _, _, _, net, ⟨r', s', rfl, rfl, haligned⟩, hrun⟩ := Network.runPair_honest hprepare
    exact ⟨r', s', net, hrun, haligned⟩

/-- Three batches, one of them empty and one longer than a square. -/
theorem session_transfers_three :
    let seeds := replicate 128 (Keystream.ofSeed .zero, Keystream.ofSeed (Block.ofNat 1))
    let delta := BitString.ofBits (replicate 128 true)
    let batches := [BitString.ofBits [true, false, true], BitString.ofBits [],
      BitString.ofBits (replicate 130 true)]
    ∃ r s, Receiver.ofSeeds seeds false = .ok r ∧
      Sender.ofSeeds delta (chosenKeys seeds delta.bits) false = .ok s ∧
      ∃ received sent, ∀ c d : Coins, ∃ r' s' net,
        (Network.ofCoins [c, d]).runPair .honest ((Receiver.receiveAll ⟨1, 0, 1⟩ batches).start r)
            ((Sender.sendAll ⟨0, 1, 0⟩ (batches.map BitString.length)).start s)
          = (some (.ok received, r'), some (.ok sent, s'), net) := by
  intro seeds delta batches
  have hbatches : ∀ v ∈ batches, v.WellFormed ∧ HasRoom v.length := by
    intro v hv
    simp only [batches, mem_cons, not_mem_nil, or_false] at hv
    rcases hv with rfl | rfl | rfl
    · exact ⟨BitString.wellFormed_ofBits _, by decide⟩
    · exact ⟨BitString.wellFormed_ofBits _, by decide⟩
    · have hlength : (BitString.ofBits (replicate 130 true)).length = 130 := length_replicate
      exact ⟨BitString.wellFormed_ofBits _, by rw [hlength]; decide⟩
  obtain ⟨r, s, hr, hs, received, sent, -, -, -, hrun⟩ := session_transfers seeds delta
    length_replicate length_replicate false (LinkEnd.joined_mk Nat.zero_ne_one) hbatches
  exact ⟨r, s, hr, hs, received, sent, fun c d => (hrun c d).1⟩

/-- The message with an error added to the correction in it. -/
def addError (error : BitMatrix) (message : Bytes) : Bytes :=
  match BitMatrix.wire.read message with
  | .error _ => message
  | .ok u =>
    match u.xor error with
    | .error _ => message
    | .ok sent => BitMatrix.wire.encode sent

/-- Adds an error to the first message from party 0 to party 1. -/
def tampering (error : BitMatrix) (source target k : Nat) (message : Bytes) : Bytes :=
  if source = 0 ∧ target = 1 ∧ k = 0 then addError error message else message

theorem addError_encode (error : BitMatrix) {u : BitMatrix} (hword : u.squares.length < 2 ^ 64)
    (herror : u.squares.length = error.squares.length) :
    ∃ sent, addError error (BitMatrix.wire.encode u) = BitMatrix.wire.encode sent ∧
      sent.squares.length = u.squares.length ∧
      ∀ k i j, i < 128 → sent.bitAt k i j = (u.bitAt k i j ^^ error.bitAt k i j) := by
  obtain ⟨sent, hsum, hlength, hbits⟩ := BitMatrix.xor_eq herror
  refine ⟨sent, ?_, hlength, hbits⟩
  rw [addError, (BitMatrix.carries_wire hword).read_encode]
  simp only [hsum]

/-- **A batch whose correction is changed on its way.**  The receiver ends as if nothing had
happened; the sender's verdict is about the errors that `delta` selects. -/
theorem Paired.meets_tampered (h : Paired r s) (hl : LinkEnd.Joined 0 1 l l') (hv : v.WellFormed)
    (hroom : HasRoom v.length) (herror : error.squares.length = squaresFor v.length) (t u : Tape) :
    Meets 0 1 (fun a b _ _ => ∃ r' s', a = (.ok (receivedBlocks r.counter r.zeros v.length), r') ∧
        ∃ sent, ((∀ k < squaresFor v.length * 128, s.delta &&& error.transpose.rowAt k = .zero) →
            sent = sentBlocks r.counter r.zeros s.delta v) ∧
          b = ((verdict s.passive (errorSum s.delta error (squaresFor v.length * 128)
            (tossed (t.tail.next 32) (u.next 32) (squaresFor v.length * 128)))).map fun _ => sent, s'))
      (((Receiver.receive l v).start r).altered (tampering error 0) fun _ => 0)
      (((Sender.send l' v.length).start s).altered (tampering error 1) fun _ => 0) [] [] t u := by
  obtain ⟨-, -, -, -, -, hword⟩ := hroom.exists_blank
  obtain ⟨next, next', hreceiver, hsender, hprepare⟩ := h.start_prepare l l' hv hroom
  obtain ⟨padded, w, hw, hsend, happly⟩ := hprepare (t.next _) (t.length_next _)
  obtain ⟨sent, hsent, hlength, hbits⟩ := addError_encode error (u := w)
    (by rw [hw]; omega) (hw.trans herror.symm)
  obtain ⟨m, hc, hgot⟩ := happly error sent herror (hlength.trans hw) hbits
  rw [Protocol.altered_other (tampering error) fun _ _ _ _ => rfl, Receiver.receive_eq,
    Sender.send_eq, start_bind, start_bind, hreceiver, hsender, hl.address']
  refine .drawLeft ?_
  simp only [hsend, hl.address, Protocol.send_bind]
  rw [Protocol.altered_send (tampering error) fun _ _ _ _ => rfl, hsent]
  refine .sendLeft (.recvRight ?_)
  simp only [hgot]
  refine (hc.meets_check hl h.passive t.tail u).bind ?_
  rintro _ _ t' u' ⟨rfl, rfl⟩
  obtain ⟨blocks, hhash, hblocks⟩ := hc.start_hash h.counter
  rw [resume_ok, r.start_hash_checked]
  cases verdict s.passive (errorSum s.delta error (squaresFor v.length * 128)
      (tossed (t.tail.next 32) (u.next 32) (squaresFor v.length * 128))) with
  | error e => exact .done ⟨_, _, rfl, blocks, hblocks, rfl⟩
  | ok _ =>
    rw [resume_ok, hhash]
    exact .done ⟨_, _, rfl, blocks, hblocks, rfl⟩

/-- The errors add up to zero if `delta` selects nothing of them. -/
theorem errorSum_eq_zero (h : ∀ k < n, delta &&& error.transpose.rowAt k = .zero) :
    errorSum delta error n (tossed seed seed' n) = (.zero, .zero) := by
  rw [errorSum, tossed_eq_map]
  exact combineRows_eq_zero _ fun k hk => h k (mem_range.mp hk)

/-- An error in one row does not add up to zero if `delta` selects any of it, unless the
challenge of the row is zero. -/
theorem errorSum_ne_zero {row : Nat} (hrow : row < n)
    (hothers : ∀ k < n, k ≠ row → error.transpose.rowAt k = .zero)
    (hselected : delta &&& error.transpose.rowAt row ≠ .zero)
    (hchi : (tossed seed seed' n)[row]? ≠ some .zero) :
    errorSum delta error n (tossed seed seed' n) ≠ (.zero, .zero) := by
  rw [tossed_eq_map, getElem?_map, getElem?_range hrow, Option.map_some] at hchi
  rw [errorSum, tossed_eq_map]
  refine combineRows_ne_zero nodup_range (mem_range.mpr hrow) ?_ hselected
    fun hzero => hchi (congrArg some hzero)
  intro k hk hne
  rw [hothers k (mem_range.mp hk) hne]
  exact Block.ext_bit fun i _ => by simp

/-- **What the check finds.**  After any honest batches, let an error matrix of the same
size be added to the correction of the next one on its way.  The sender accepts exactly
if the errors that `delta` selects, each row times its challenge, add up to zero, and
reports cheating otherwise.  So an error in one row is found if `delta` selects any of it
and the challenge of the row is not zero; and if `delta` selects nothing of any row, the
batch goes as if nothing had happened. -/
theorem tampered_correction (seeds : List (Keystream × Keystream)) (delta : BitString)
    (hseeds : seeds.length = 128) (hdelta : delta.length = 128) (hl : LinkEnd.Joined 0 1 l l')
    {earlier : List BitString} (hearlier : ∀ w ∈ earlier, w.WellFormed ∧ HasRoom w.length)
    (hv : v.WellFormed) (hroom : HasRoom v.length) {error : BitMatrix}
    (herror : extendedLength? v.length = some error.height) (c₀ d₀ c d : Coins) :
    ∃ r₀ s₀ received₀ r sent₀ s net₀,
      Receiver.ofSeeds seeds false = .ok r₀ ∧
      Sender.ofSeeds delta (chosenKeys seeds delta.bits) false = .ok s₀ ∧
      (Network.ofCoins [c₀, d₀]).runPair .honest ((Receiver.receiveAll l earlier).start r₀)
          ((Sender.sendAll l' (earlier.map BitString.length)).start s₀)
        = (some (.ok received₀, r), some (.ok sent₀, s), net₀) ∧
      ∃ received r' outcome s' net,
        (Network.ofCoins [c, d]).runPair (.altering (tampering error))
            ((Receiver.receive l v).start r) ((Sender.send l' v.length).start s)
          = (some (.ok received, r'), some (outcome, s'), net) ∧
        let chi := tossed (c.draws (c.used + 1) 32) (d.draws d.used 32) error.height
        ((∃ sent, outcome = .ok sent)
          ↔ errorSum s.delta error error.height chi = (.zero, .zero)) ∧
        (errorSum s.delta error error.height chi ≠ (.zero, .zero) →
          outcome = .error (.error (.cheat .correlation))) ∧
        (∀ row < error.height, (∀ k < error.height, k ≠ row → error.transpose.rowAt k = .zero) →
          s.delta &&& error.transpose.rowAt row ≠ .zero → chi[row]? ≠ some .zero →
          outcome = .error (.error (.cheat .correlation))) ∧
        ((∀ k < error.height, s.delta &&& error.transpose.rowAt k = .zero) →
          ∃ sent, outcome = .ok sent ∧ Transferred v received sent) := by
  obtain ⟨r₀, s₀, hr₀, hs₀, hpaired₀, hactive⟩ := paired_ofSeeds hseeds hdelta false
  obtain ⟨_, _, _, _, net₀, ⟨r, s, rfl, rfl, hpaired, -, hpassive⟩, hrun₀⟩ :=
    Network.runPair_honest (hpaired₀.meets_session hl hearlier c₀.tape d₀.tape)
  refine ⟨r₀, s₀, _, r, _, s, net₀, hr₀, hs₀, hrun₀, ?_⟩
  have hheight : error.height = squaresFor v.length * 128 := by
    rw [extendedLength?_eq hroom] at herror
    exact (Option.some.inj herror).symm
  have hsquares : error.squares.length = squaresFor v.length := by
    rw [BitMatrix.height] at hheight
    omega
  obtain ⟨_, _, _, _, net, ⟨r', s', rfl, sent, hsent, rfl⟩, hrun⟩ :=
    Network.runPair_of_meets (hpaired.meets_tampered hl hv hroom hsquares c.tape d.tape)
  refine ⟨_, r', _, s', net, hrun, ?_⟩
  rw [hpassive, hactive, ← hheight]
  rw [← hheight] at hsent
  intro chi
  change ((∃ sent', (verdict false (errorSum s.delta error error.height chi)).map (fun _ => sent)
    = .ok sent') ↔ _) ∧ _
  have hreject : errorSum s.delta error error.height chi ≠ (.zero, .zero) →
      (verdict false (errorSum s.delta error error.height chi)).map (fun _ => sent)
        = .error (.error (.cheat .correlation)) := by
    intro hsum
    rw [verdict, if_neg (by simp [hsum])]
    rfl
  have haccept : errorSum s.delta error error.height chi = (.zero, .zero) →
      (verdict false (errorSum s.delta error error.height chi)).map (fun _ => sent) = .ok sent := by
    intro hsum
    rw [verdict, if_pos (.inr hsum)]
    rfl
  refine ⟨⟨?_, fun hsum => ⟨sent, haccept hsum⟩⟩, hreject, ?_, ?_⟩
  · rintro ⟨sent', hok⟩
    by_contra hsum
    rw [hreject hsum] at hok
    cases hok
  · intro row hrow hothers hselected hchi
    exact hreject (errorSum_ne_zero hrow hothers hselected hchi)
  · intro hzero
    refine ⟨sent, haccept (errorSum_eq_zero hzero), ?_⟩
    rw [hsent hzero]
    exact transferred_blocks _ _ _ hv

/-- An error in every row, after one honest batch. -/
theorem tampered_correction_all_rows :
    let v := BitString.ofBits [true, false]
    let error : BitMatrix := ⟨replicate 3 ⟨.replicate 128 (Block.ofNat 1)⟩⟩
    let c := Coins.ofSeed 0
    let d := Coins.ofSeed 1
    extendedLength? v.length = some error.height ∧ ∃ r s received r' outcome s' net,
      (Network.ofCoins [c, d]).runPair (.altering (tampering error))
          ((Receiver.receive ⟨1, 0, 1⟩ v).start r) ((Sender.send ⟨0, 1, 0⟩ v.length).start s)
        = (some (.ok received, r'), some (outcome, s'), net) ∧
      ((∃ sent, outcome = .ok sent) ↔ errorSum s.delta error error.height
        (tossed (c.draws (c.used + 1) 32) (d.draws d.used 32) error.height) = (.zero, .zero)) := by
  intro v error c d
  have herror : extendedLength? v.length = some error.height := by decide
  have hearlier : ∀ w ∈ [BitString.ofBits [true]], w.WellFormed ∧ HasRoom w.length := by
    intro w hw
    rw [mem_singleton.mp hw]
    exact ⟨BitString.wellFormed_ofBits _, by decide⟩
  obtain ⟨_, _, _, r, _, s, _, -, -, -, received, r', outcome, s', net, hrun, hiff, -⟩ :=
    tampered_correction
      (replicate 128 (Keystream.ofSeed .zero, Keystream.ofSeed (Block.ofNat 1)))
      (BitString.ofBits (replicate 128 true)) length_replicate length_replicate
      (LinkEnd.joined_mk Nat.zero_ne_one) hearlier (BitString.wellFormed_ofBits [true, false]) (by decide)
      herror c d c d
  exact ⟨herror, r, s, received, r', outcome, s', net, hrun, hiff⟩

end Beaver.Transfer
