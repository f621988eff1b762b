import Mathlib
import Beaver.Proofs.Faults.Workloads
import Beaver.Proofs.Outcomes
import Beaver.Proofs.Transfer.Phases
import Beaver.Proofs.WireForms

/-!
# How long the messages of a multiplier are

`Limited n s t post inv` says that a step sends no message of more than `n` bytes, whatever its
peers do and also if it fails on the way.

A batch of extended transfers takes one square for every 128 of them and two more for the check,
and each square takes 2056 bytes of the correction (`Receiver.limited_receive`).  The corrections
of a product take one row for each bit of a value, and those of an evaluation one row for each bit
of the key, which the input holder knows by the number of its streams
(`InputHolder.limited_evaluate`).

So a multiplier that was set up and has failed any number of times sends no more than 4096 bytes
for each value of a job, and a little more (`Multiplier.limited_process`).
-/

namespace Beaver

open List
open ShareRing

namespace Session

variable {σ τ α β : Type} {n : Nat}

/-- From the state `t` a step sends no message of more than `n` bytes.  After a success `post`
holds, and after a failure `inv` does. -/
abbrev Limited (n : Nat) (s : Session σ α) (t : σ) (post : α → σ → Prop) (inv : σ → Prop) : Prop :=
  Always (fun m => m.length ≤ n) s t post fun _ => inv

namespace Limited

variable {I : σ → Prop} {call : β → Session σ α}

/-- **One call after the other**, whatever became of those before. -/
theorem runEach {t : σ} {mayFail : β → Bool} {xs : List β}
    (h : ∀ x ∈ xs, ∀ u, I u → Limited n (call x) u (fun _ => I) I) (ht : I t) :
    Limited n (runEach call mayFail xs) t (fun _ => I) I := by
  induction xs generalizing t with
  | nil => exact ht
  | cons x xs ih =>
    have hgo : ∀ (outcome : Except Failure α) (u : σ), I u →
        Limited n (if (outcome.isOk || mayFail x) = true then do
            let rest ← Session.runEach call mayFail xs
            Pure.pure (outcome :: rest)
          else Pure.pure [outcome]) u (fun _ => I) I := by
      intro outcome u hu
      have hrest := ih (fun y hy => h y (mem_cons_of_mem x hy)) hu
      simp [hrest, hu]
    rw [Session.runEach, Limited, Always, start_bind, start_attempt, Protocol.bind_assoc,
      Protocol.always_bind]
    refine Protocol.Always.mono (h x mem_cons_self t ht) fun r hr => ?_
    obtain ⟨(_ | e) | a, u⟩ := r
    · exact hr
    · exact hgo (.error (.error e)) u hr
    · exact hgo (.ok a) u hr

/-- All calls on an object keep to the limit if every call leaves it as it has to be. -/
theorem calls {t : τ} {new : Session τ σ} {inputs : List β}
    (hnew : Limited n new t (fun s _ => I s) fun _ => True)
    (hcall : ∀ x ∈ inputs, ∀ s, I s → Limited n (call x) s (fun _ => I) I) :
    Limited n (Session.calls new call inputs) t (fun _ _ => True) fun _ => True := by
  simp only [Session.calls, always_bind, always_borrow, always_pure]
  refine hnew.mono (fun s u hs => ?_) fun _ _ h => h
  exact (runEach hcall hs).mono (fun _ _ _ => trivial) fun _ _ _ => trivial

end Limited

end Session

open Session (Limited)

namespace Wire

variable {α : Type}

/-- A list has eight bytes for its length, and then its items. -/
theorem length_encode_list_le {w : Wire α} {k : Nat} {xs : List α}
    (h : ∀ x ∈ xs, (w.encode x).length ≤ k) : (w.list.encode xs).length ≤ 8 + xs.length * k := by
  have hitems : (xs.flatMap w.encode).length ≤ xs.length * k := by
    rw [length_flatMap]
    refine (sum_le_card_nsmul _ k ?_).trans_eq (by simp)
    intro size hsize
    obtain ⟨x, hx, rfl⟩ := mem_map.mp hsize
    exact h x hx
  rw [list, length_append, length_encode_count]
  exact Nat.add_le_add_left hitems 8

theorem length_encode_elements [ShareRing α] (xs : List α) :
    ((element α).list.encode xs).length ≤ 8 + xs.length * ShareRing.bytes α :=
  length_encode_list_le fun _ _ => (Bytes.length_ofNatLE _ _).le

end Wire

/-- Elements of at most 128 bits. -/
structure ShareRing.Narrow (α : Type) [ShareRing α] : Prop where
  bits_le : bits α ≤ 128
  bytes_le : bytes α ≤ 16

theorem RingName.narrow (r : RingName) : Narrow r.Carrier :=
  ⟨r.bits_le, by cases r <;> decide⟩

theorem length_of_mapM_ok {ε α β : Type} {f : α → Except ε β} {xs : List α} {ys : List β}
    (h : xs.mapM f = .ok ys) : ys.length = xs.length := by
  induction xs generalizing ys with
  | nil =>
    cases h
    rfl
  | cons x xs ih =>
    rw [mapM_cons, bind_eq_ok_iff] at h
    obtain ⟨y, -, h⟩ := h
    obtain ⟨rest, hrest, h⟩ := bind_eq_ok_iff.mp h
    cases h
    exact congrArg (· + 1) (ih hrest)

namespace BitMatrix

theorem length_of_expand {m m' : BitMatrix} {streams streams' : List Keystream}
    (h : m.expand streams = .ok (m', streams')) : m'.squares.length = m.squares.length := by
  obtain ⟨_, -, h⟩ := bind_eq_ok_iff.mp h
  cases h
  simp

theorem length_of_xorChoices {m u : BitMatrix} {choices : BitString}
    (h : m.xorChoices choices = .ok u) : u.squares.length = m.squares.length := by
  obtain ⟨_, -, h⟩ := bind_eq_ok_iff.mp h
  cases h
  simp [BitString.length_blocks]

end BitMatrix

namespace Transfer

variable {n : Nat} {l : LinkEnd}

theorem squares_of_blank {size rows : Nat} {blank : BitMatrix} (hrows : extendedLength? size = some rows)
    (hblank : BitMatrix.zeros? rows = some blank) : blank.squares.length = squaresFor size := by
  obtain ⟨-, hlength⟩ := Option.ite_none_right_eq_some.mp hrows
  obtain ⟨_, -, rfl⟩ := Option.map_eq_some_iff.mp hblank
  rw [BitMatrix.zeros, length_replicate, squaresFor, ← Option.some.inj hlength, checkPadding]
  omega

theorem limited_challenges {σ : Type} {t : σ} {k : Nat} {post : List Block → σ → Prop}
    {inv : σ → Prop} (hn : 64 ≤ n) (hpost : ∀ chi, post chi t) (hinv : inv t) :
    Limited n (challenges l k) t post inv := by
  simp only [challenges, Session.always_bind, Session.always_pure]
  exact CoinToss.always_pairwise (fun m hm => hm.trans hn) (fun _ => hpost _) (fun _ _ => hinv)
    fun _ => hinv

namespace Receiver

variable {r : Receiver}

/-- The masks of a batch have a square for every 128 transfers and two more. -/
theorem limited_expand (size : Nat) :
    Limited n (expand size) r (fun _ u => u.mask.squares.length = squaresFor size) fun _ => True := by
  simp [expand, advance]
  intro _ rows hrows blank hblank _ _ _ mask _ hmask
  exact (BitMatrix.length_of_expand hmask).trans (squares_of_blank hrows hblank)

/-- The correction has as many squares as the masks. -/
theorem limited_tie {padded : BitString} (hn : 8 + r.mask.squares.length * 2056 ≤ n) :
    Limited n (tie l padded) r (fun _ _ => True) fun _ => True := by
  simp [tie]
  intro u hu u' hu'
  rw [← BitMatrix.length_of_xor hu, ← BitMatrix.length_of_xorChoices hu'] at hn
  exact (BitMatrix.length_encode_wire u').le.trans hn

/-- **The correction of a batch** takes 2056 bytes for every square. -/
theorem limited_receive {choices : BitString} (hn : 8 + squaresFor choices.length * 2056 ≤ n) :
    Limited n (receive l choices) r (fun _ _ => True) fun _ => True := by
  have h64 : 64 ≤ n := by
    rw [squaresFor] at hn
    omega
  have hanswer : ∀ a, (answerWire.encode a).length ≤ n := by
    intro a
    have hlength : (answerWire.encode a).length = 48 := by
      simp [answerWire, Wire.pair, Wire.block, Block.length_toBytes]
    omega
  refine (limited_expand choices.length).andThen fun _ u hu => ?_
  rw [← hu] at hn
  simp [correlate, pad, drawChoices, advance, transpose, check, hash,
    limited_challenges, h64, hanswer]
  intro _ _ _ _ bytes _
  split
  · exact limited_tie hn
  · trivial

end Receiver

namespace Sender

/-- The sender of a batch sends nothing but coin tosses. -/
theorem limited_send {s : Sender} {size : Nat} (hn : 64 ≤ n) :
    Limited n (send l size) s (fun _ _ => True) fun _ => True := by
  simp [send, expand, correlate, transpose, check, hash, advance, limited_challenges, hn]

end Sender

end Transfer

namespace LinearEvaluation

variable {n : Nat} {l : LinkEnd} {α : Type} [ShareRing α]

theorem limited_challengePairs {σ : Type} {t : σ} {rows : Nat} {post : List (Nat × Nat) → σ → Prop}
    {inv : σ → Prop} (hn : 64 ≤ n) (hpost : ∀ pairs, pairs.length = rows → post pairs t)
    (hinv : inv t) : Limited n (challengePairs l rows) t post inv := by
  have hcoins : Limited n (CoinToss.pairwise l) t (fun coins u => post (drawPairs rows rows coins) u)
      inv :=
    CoinToss.always_pairwise (fun m hm => hm.trans hn) (fun _ => hpost _ (length_drawPairs _ _ _))
      (fun _ _ => hinv) fun _ => hinv
  rw [challengePairs]
  split <;> simp [hcoins, hinv]

theorem length_encode_digests (rows : List (Row α × Row α)) (i first second : Nat) :
    (PairDigests.wire.encode (InputHolder.digests rows i first second)).length = 128 := by
  have hdigest : ∀ a b (row : Row α), (pairDigest i a b row).length = 32 := fun _ _ _ =>
    Digest.length_keyed _ _ _
  simp [PairDigests.wire, Wire.map, Wire.pair, Wire.bytes, InputHolder.digests, PairDigests.ofFn,
    hdigest]

/-- **The correction of an evaluation** has one row for each stream. -/
theorem InputHolder.limited_evaluate {h : InputHolder} {inputs : List α}
    (hstreams : h.streams.length = bits α) (hrows : 8 + bits α * (8 + inputs.length * bytes α) ≤ n)
    (hdigests : 8 + bits α * 128 ≤ n) (hn : 64 ≤ n) :
    Limited n (evaluate l inputs) h (fun _ u => u.streams.length = bits α)
      fun u => u.streams.length = bits α := by
  have hrandom : ∀ s, (Row.random inputs.length s : Row α × Keystream).1.values.length
      = inputs.length := fun s => by rw [Row.random, length_map, Keystream.length_blocks]
  have hcorrection : ((Row.wire α).list.encode (h.streams.map fun s =>
      ((Row.random inputs.length s.1).1.minus (Row.random inputs.length s.2).1).add
        ⟨inputs⟩)).length ≤ n := by
    refine (Wire.length_encode_list_le (k := 8 + inputs.length * bytes α) ?_).trans ?_
    · intro row hrow
      obtain ⟨s, -, rfl⟩ := mem_map.mp hrow
      refine (Wire.length_encode_elements _).trans_eq ?_
      simp [Row.add, Row.update, Row.minus, hrandom]
    · rwa [length_map, hstreams]
  have hcheck : ∀ rows (pairs : List (Nat × Nat)), pairs.length = bits α →
      (PairDigests.wire.list.encode (pairs.zipIdx.map fun p =>
        digests (α := α) rows p.2 p.1.1 p.1.2)).length ≤ n := by
    intro rows pairs hpairs
    refine (Wire.length_encode_list_le (k := 128) ?_).trans ?_
    · intro d hd
      obtain ⟨p, -, rfl⟩ := mem_map.mp hd
      exact (length_encode_digests ..).le
    · rwa [length_map, length_zipIdx, hpairs]
  simp +contextual [evaluate, expandRows, Function.comp_def, hstreams, hcorrection, limited_challengePairs,
    hn, hcheck]

/-- The holder of the key sends nothing but coin tosses. -/
theorem KeyHolder.limited_evaluate {h : KeyHolder α} {size : Nat} (hn : 64 ≤ n) :
    Limited n (evaluate l size) h (fun _ _ => True) fun _ => True := by
  simp [evaluate, expandRows, LinkEnd.recvList, Session.always_forM_check, limited_challengePairs, hn]

end LinearEvaluation

namespace Multiplier

open LinearEvaluation

variable {n : Nat} {l : LinkEnd} {σ τ μ : Type} [ShareRing τ] [ShareRing μ]

/-- If there are linear evaluations, the input holder has two streams for each bit of a key. -/
def Streamed (m : Multiplier μ) : Prop :=
  ∀ a, m.auth = some a → a.input.streams.length = bits μ

/-- Two halves in either order. -/
theorem limited_inOrder {α β : Type} {t : σ} {I : σ → Prop} {first : Session σ α}
    {second : Session σ β} (hfirst : ∀ u, I u → Limited n first u (fun _ => I) I)
    (hsecond : ∀ u, I u → Limited n second u (fun _ => I) I) (ht : I t) :
    Limited n (inOrder l first second) t (fun _ => I) I := by
  simp only [inOrder, Session.always_ite, Session.always_bind, Session.always_pure]
  constructor
  · exact fun _ => (hfirst t ht).mono (fun _ u hu => hsecond u hu) fun _ _ h => h
  · exact fun _ => (hsecond t ht).mono (fun _ u hu => hfirst u hu) fun _ _ h => h

variable {m : Multiplier μ} {b a : List τ}

theorem limited_receiving {choices : BitString}
    (hn : 8 + Transfer.squaresFor choices.length * 2056 ≤ n) (hm : m.Streamed) :
    Limited n (receiving (Transfer.Receiver.receive l choices)) m (fun _ => Streamed) Streamed :=
  Session.always_zoom.mpr ((Transfer.Receiver.limited_receive hn).mono (fun _ _ _ => hm) fun _ _ _ => hm)

theorem limited_sending {size : Nat} (hn : 64 ≤ n) (hm : m.Streamed) :
    Limited n (sending (Transfer.Sender.send l size)) m (fun _ => Streamed) Streamed :=
  Session.always_zoom.mpr ((Transfer.Sender.limited_send hn).mono (fun _ _ _ => hm) fun _ _ _ => hm)

/-- **Setting up**, which leaves as many streams as the check of their number lets pass. -/
theorem limited_setup {seeds : Transfer.Seeds} {key : Option μ} {passive : Bool} {t : σ}
    (hn : 8 + Transfer.squaresFor (bits μ) * 2056 ≤ n) (h64 : 64 ≤ n) :
    Limited n (setup l seeds key passive) t (fun m _ => m.Streamed) fun _ => True := by
  have hstreams : ∀ pairs input (m : Multiplier μ) (k : KeyHolder μ),
      InputHolder.ofSeeds μ pairs passive = .ok input → Streamed { m with auth := some ⟨input, k⟩ } := by
    intro pairs input m k hinput a ha
    cases ha
    obtain ⟨_, hlength, hinput⟩ := bind_eq_ok_iff.mp hinput
    cases hinput
    simp [checkLength_ok hlength]
  cases key with
  | none => simp [setup, Streamed]
  | some key =>
    simp [setup, setupKey]
    intro receiver hreceiver sender hsender
    have hchoices : (BitString.ofBits (elementBits key)).length = bits μ := by
      rw [BitString.ofBits, elementBits, length_map, length_range]
    have hnone : Streamed (⟨receiver, sender, none⟩ : Multiplier μ) := by
      intro _ h
      cases h
    refine (limited_inOrder (fun u => limited_receiving (hchoices ▸ hn))
      (fun u => limited_sending h64) hnone).mono ?_ fun _ _ _ => trivial
    exact fun _ m _ input hinput keyHolder _ => hstreams _ input m keyHolder hinput

theorem limited_multiplyReceiving (hn : 8 + Transfer.squaresFor (b.length * bits τ) * 2056 ≤ n)
    (hm : m.Streamed) : Limited n (multiplyReceiving l b) m (fun _ => Streamed) Streamed := by
  have hchoices : (BitString.ofBits (b.flatMap elementBits)).length = b.length * bits τ := by
    simp [BitString.ofBits, elementBits, length_flatMap]
  refine (limited_receiving (hchoices ▸ hn) hm).andThen fun _ u hu => ?_
  simp [LinkEnd.recvList, hu]

theorem limited_multiplySending (hn : 8 + a.length * (8 + bits τ * bytes τ) ≤ n) (h64 : 64 ≤ n)
    (hm : m.Streamed) : Limited n (multiplySending l a) m (fun _ => Streamed) Streamed := by
  refine (limited_sending h64 hm).andThen fun pairs m hm => ?_
  simp [hm]
  intro sent hsent
  refine (Wire.length_encode_list_le (k := 8 + bits τ * bytes τ) fun u _ => ?_).trans ?_
  · exact (Wire.length_encode_elements _).trans_eq (by rw [Vector.length_toList])
  · have hlength : sent.length ≤ a.length := by
      rw [length_of_mapM_ok hsent, length_zip]
      exact Nat.min_le_right _ _
    rw [length_map]
    exact (Nat.add_le_add_left (Nat.mul_le_mul_right _ hlength) 8).trans hn

variable {k : Nat} (hτ : Narrow τ) (hμ : Narrow μ) (hn : 4096 * k + 65536 ≤ n)

include hτ hn in
/-- The transfers for the bits of `k` values take at most `k + 2` squares. -/
theorem limited_crossProducts (ha : a.length ≤ k) (hm : m.Streamed) :
    Limited n (crossProducts l a b) m (fun _ => Streamed) Streamed := by
  simp [crossProducts, hm]
  intro _ hlength
  have hb : b.length ≤ k := (checkLength_ok hlength).symm.le.trans ha
  have hbits : b.length * bits τ ≤ k * 128 := Nat.mul_le_mul hb hτ.bits_le
  have hsquares : 8 + Transfer.squaresFor (b.length * bits τ) * 2056 ≤ n := by
    rw [Transfer.squaresFor]
    omega
  have hrectangle : bits τ * bytes τ ≤ 128 * 16 := Nat.mul_le_mul hτ.bits_le hτ.bytes_le
  have hcorrections : 8 + a.length * (8 + bits τ * bytes τ) ≤ n := by
    have hle := Nat.mul_le_mul ha (Nat.add_le_add_left hrectangle 8)
    omega
  exact limited_inOrder (fun u hu => limited_multiplyReceiving hsquares hu)
    (fun u hu => limited_multiplySending hcorrections (by omega) hu) hm

/-- A step of the linear evaluations that keeps the number of streams. -/
theorem limited_authenticating {α : Type} {s : Session (Authenticator μ) α}
    (hs : ∀ a, a.input.streams.length = bits μ →
      Limited n s a (fun _ u => u.input.streams.length = bits μ)
        fun u => u.input.streams.length = bits μ)
    (hm : m.Streamed) : Limited n (authenticating s) m (fun _ => Streamed) Streamed := by
  have hset : ∀ u : Authenticator μ, u.input.streams.length = bits μ →
      Streamed { m with auth := some u } := by
    intro u hu a ha
    cases ha
    exact hu
  cases hauth : m.auth with
  | none => simp [authenticating, hauth, hm]
  | some auth =>
    simp [authenticating, hauth]
    exact (hs auth (hm auth hauth)).mono (fun _ u => hset u) fun _ => hset

variable [Lift τ μ]

include hτ hμ hn in
/-- **A job** sends at most 4096 bytes for each of its values and 65536 more in one message,
and leaves the multiplier as it has to be. -/
theorem limited_process {job : Job τ} (hjob : job.length ≤ k) (hm : m.Streamed) :
    Limited n (process l job) m (fun _ => Streamed) Streamed := by
  have hmine : ∀ values : List τ, values.length ≤ k → ∀ a : Authenticator μ,
      a.input.streams.length = bits μ → Limited n (authenticateMine l (values.map Lift.lift)) a
        (fun _ u => u.input.streams.length = bits μ) fun u => u.input.streams.length = bits μ := by
    intro values hvalues a ha
    have hrow : values.length * bytes μ ≤ k * 16 := Nat.mul_le_mul hvalues hμ.bytes_le
    have hrows := Nat.mul_le_mul hμ.bits_le (Nat.add_le_add_left hrow 8)
    have hdigests := Nat.mul_le_mul_right 128 hμ.bits_le
    rw [← length_map (Lift.lift : τ → μ)] at hrows
    exact Session.always_zoom.mpr (InputHolder.limited_evaluate ha (by omega) (by omega) (by omega))
  have htheirs : ∀ size (a : Authenticator μ), a.input.streams.length = bits μ →
      Limited n (authenticateTheirs l size) a (fun _ u => u.input.streams.length = bits μ)
        fun u => u.input.streams.length = bits μ := fun size a ha =>
    Session.always_zoom.mpr
      ((KeyHolder.limited_evaluate (by omega)).mono (fun _ _ _ => ha) fun _ _ _ => ha)
  cases job with
  | triple a b => exact Session.always_map.mpr (limited_crossProducts hτ hn hjob hm)
  | square a => exact Session.always_map.mpr (limited_crossProducts hτ hn hjob hm)
  | input owner values =>
    have hauthenticated := limited_authenticating (hmine values hjob) hm
    have hanswered := limited_authenticating (htheirs values.length) hm
    simp [process, authenticateInput, hm, hauthenticated, hanswered]
  | authenticate values =>
    have hboth := limited_authenticating
      (fun a ha => limited_inOrder (l := l) (hmine values hjob) (htheirs values.length) ha) hm
    simp [process, authenticate, hboth]

end Multiplier

end Beaver
