import Beaver.Proofs.Transfer.Release

/-!
# What a call does to the account of a session

Both ends of a session go through the same phases, and they keep the same *account*: the phase
that is due, the counter of the tweaks, and the size and the height of the batch.  `Account.Step`
has all that a call of a phase can do to it.  Either end refuses a call with nothing changed, or
its account makes such a step (`Side.ends_run`).

A phase is left whatever becomes of its work.  Only the first phase sets the size of the batch,
and only hashing that gives blocks moves the counter, by the height of the batch.
-/

namespace Beaver

open Session (Always Ends ends_of_start start_bind)
open List

/-- The hashes of the first rows, made into other blocks, with the tweaks from `first` on. -/
theorem TweakedHash.hashFrom_rows (first : Nat) {n : Nat} {m : BitMatrix} (hn : n ≤ m.height)
    (f : Block → Block) : hashFrom first ((m.rows.take n).map f) =
      ((range' first n).zip m.rows).map fun p => hashBlock publicKey (Block.ofNat p.1) (f p.2) := by
  rw [← BitMatrix.length_rows] at hn
  generalize m.rows = xs at hn ⊢
  apply ext_getElem?
  intro k
  rw [getElem?_hashFrom, getElem?_map, getElem?_map]
  rcases Nat.lt_or_ge k n with hk | hk
  · have hlt : k < xs.length := Nat.lt_of_lt_of_le hk hn
    simp [hk, hlt, zip]
  · simp [hk, zip]

namespace Transfer

/-- A call of one phase, at either end.  Only a receiver has choice bits to tie its columns to. -/
inductive Request where
  | expand (n : Nat)
  | correlate (choices : BitString)
  | transpose
  | check
  | hash

namespace Request

/-- The call at a sender. -/
def toCall : Request → Sender.Call
  | expand n => .expand n
  | correlate _ => .correlate
  | transpose => .transpose
  | check => .check
  | hash => .hash

/-- The phase that a call is for. -/
def phase (c : Request) : Phase := c.toCall.phase

/-- A batch that is begun can be counted in a machine word, with its padding. -/
def Fits : Request → Prop
  | expand n => (extendedLength? n).isSome = true
  | _ => True

end Request

/-- What both ends keep account of. -/
structure Account where
  phase : Phase
  /-- The tweak of the next transfer. -/
  counter : Nat
  /-- The size of the batch. -/
  size : Nat
  /-- The number of rows of the batch, with its padding. -/
  height : Nat

/-- What a call can do to an account, and what comes of it: the tweaks of the blocks that it
gives, if any. -/
inductive Account.Step (a : Account) :
    Request → Except Failure (Option (List Nat)) → Account → Prop where
  | begun {n : Nat} (hphase : a.phase = .expand) (hroom : HasRoom n) : Step a (.expand n) (.ok none)
      { a with phase := .correlate, size := n, height := squaresFor n * 128 }
  | noRoom {n : Nat} (hphase : a.phase = .expand) (hroom : ¬ HasRoom n) :
      Step a (.expand n) (.error .fault) { a with phase := .correlate, size := n }
  | correlated {choices : BitString} {o : Except Failure Unit} (hphase : a.phase = .correlate) :
      Step a (.correlate choices) (o.map fun _ => none) { a with phase := .transpose }
  | transposed (hphase : a.phase = .transpose) :
      Step a .transpose (.ok none) { a with phase := .check }
  | checked {o : Except Failure Unit} (hphase : a.phase = .check) :
      Step a .check (o.map fun _ => none) { a with phase := .hash }
  | hashed (hphase : a.phase = .hash) (hsize : a.size ≤ a.height) :
      Step a .hash (.ok (some (range' a.counter a.size)))
        { a with phase := .expand, counter := a.counter + a.height, height := 0 }
  | lost (hphase : a.phase = .hash) (hsize : a.height < a.size) :
      Step a .hash (.error .fault) { a with phase := .expand }

/-- The two ends of a session. -/
inductive Side where
  | sender
  | receiver

namespace Side

/-- The state of an end. -/
@[reducible]
def State : Side → Type
  | sender => Sender
  | receiver => Receiver

/-- What an end gets for each transfer. -/
@[reducible]
def Output : Side → Type
  | sender => Block × Block
  | receiver => Block

/-- The account of an end. -/
def account : (side : Side) → side.State → Account
  | sender, s => ⟨s.phase, s.counter, s.size, s.matrix.height⟩
  | receiver, r => ⟨r.phase, r.counter, r.size, r.matrix.height⟩

/-- The rows of the batch. -/
def rows : (side : Side) → side.State → List Block
  | sender, s => s.matrix.rows
  | receiver, r => r.matrix.rows

/-- An end has the streams of 128 base transfers. -/
def Seeded : (side : Side) → side.State → Prop
  | sender, s => s.streams.length = 128
  | receiver, r => r.zeros.length = 128 ∧ r.ones.length = 128

/-- An end has just been made. -/
def Fresh : (side : Side) → side.State → Prop
  | sender, s => ∃ delta seeds passive, Sender.ofSeeds delta seeds passive = .ok s
  | receiver, r => ∃ seeds passive, Receiver.ofSeeds seeds passive = .ok r

/-- What an end makes of a row and a tweak. -/
def hashed : (side : Side) → side.State → Nat → Block → side.Output
  | sender, s, i, x => (TweakedHash.hashBlock TweakedHash.publicKey (Block.ofNat i) x,
      TweakedHash.hashBlock TweakedHash.publicKey (Block.ofNat i) (x ^^^ s.delta))
  | receiver, _, i, x => TweakedHash.hashBlock TweakedHash.publicKey (Block.ofNat i) x

/-- What an end gets with given tweaks, one a row. -/
def outputs (side : Side) (s : side.State) (tweaks : List Nat) : List side.Output :=
  (tweaks.zip (side.rows s)).map fun p => side.hashed s p.1 p.2

/-- Makes a call; only hashing gives blocks. -/
def run : (side : Side) → LinkEnd → Request → Session side.State (Option (List side.Output))
  | sender, l, c => c.toCall.run l
  | receiver, _, .expand n => (fun _ => none) <$> Receiver.expand n
  | receiver, l, .correlate choices => (fun _ => none) <$> Receiver.correlate l choices
  | receiver, _, .transpose => (fun _ => none) <$> Receiver.transpose
  | receiver, l, .check => (fun _ => none) <$> Receiver.check l
  | receiver, _, .hash => some <$> Receiver.hash

/-- A receiver has to have a choice bit for each transfer. -/
def Suits : (side : Side) → side.State → Request → Prop
  | receiver, r, .correlate choices => choices.length = r.size
  | _, _, _ => True

/-- An end takes the calls of its phase, if they suit its batch. -/
def Takes (side : Side) (s : side.State) (c : Request) : Prop :=
  (side.account s).phase = c.phase ∧ side.Suits s c

/-- What becomes of a call: it is refused, with nothing done, or it is taken. -/
inductive Answers (side : Side) (s : side.State) (c : Request) :
    List Event → Except Failure (Option (List side.Output)) → side.State → Prop where
  | refused (e : Error) (h : ¬ side.Takes s c) : Answers side s c [] (.error (.error e)) s
  | taken {es : List Event} {r : Except Failure (Option (List side.Output))} {t : side.State}
      (o : Except Failure (Option (List Nat))) (h : side.Takes s c) (hseeded : side.Seeded t)
      (hstep : (side.account s).Step c o (side.account t))
      (hr : r = o.map (Option.map (side.outputs s))) : Answers side s c es r t

/-- What becomes of a call that gives no blocks. -/
theorem Answers.quiet {side : Side} {s t : side.State} {c : Request} {es : List Event}
    {o : Except Failure Unit} (h : side.Takes s c) (hseeded : side.Seeded t)
    (hstep : (side.account s).Step c (o.map fun _ => none) (side.account t)) :
    Answers side s c es (o.map fun _ => none) t := by
  refine .taken _ h hseeded hstep ?_
  cases o <;> rfl

end Side

/-- Memory has no room for a batch that can be counted in a machine word. -/
theorem exists_rows {n : Nat} (hfits : (Request.expand n).Fits) (hroom : ¬ HasRoom n) :
    ∃ rows, extendedLength? n = some rows ∧ BitMatrix.zeros? rows = none := by
  obtain ⟨rows, hrows⟩ := Option.isSome_iff_exists.mp hfits
  refine ⟨rows, hrows, ?_⟩
  rwa [HasRoom, hrows, Option.bind_some, Option.isSome_iff_ne_none, not_not] at hroom

namespace Sender

variable {l : LinkEnd} {s t : Sender} {es : List Event}

theorem start_expand_fault {n : Nat} (hphase : s.phase = .expand) (hfits : (Request.expand n).Fits)
    (hroom : ¬ HasRoom n) : (expand n).start s
      = .done (.error .fault, { s with phase := .correlate, size := n }) := by
  obtain ⟨rows, hrows, hzeros⟩ := exists_rows hfits hroom
  simp [expand, advance, start_bind, hphase, hrows, hzeros]

theorem start_hash_fault (hphase : s.phase = .hash) (hsize : s.matrix.height < s.size) :
    hash.start s = .done (.error .fault, { s with phase := .expand }) := by
  simp [hash, advance, start_bind, hphase, hsize]

/-- The blocks of a batch are its rows, hashed with the tweaks from the counter on. -/
theorem start_hash_outputs (hphase : s.phase = .hash) (hsize : s.size ≤ s.matrix.height) :
    hash.start s = .done (.ok (Side.outputs .sender s (range' s.counter s.size)),
      { s with phase := .expand, counter := s.counter + s.matrix.height, matrix := .empty }) := by
  have hplain := TweakedHash.hashFrom_rows s.counter hsize id
  rw [map_id] at hplain
  rw [start_hash hphase hsize, hplain, TweakedHash.hashFrom_rows s.counter hsize, zip_map']
  rfl

theorem height_expanded (s : Sender) {n : Nat} :
    (s.expanded n).matrix.height = squaresFor n * 128 := by
  rw [expanded, BitMatrix.height, BitMatrix.length_ofStreams]

/-- A correction keeps the height of the matrix, whatever becomes of it. -/
theorem always_correlate (hphase : s.phase = .correlate) :
    Always (fun _ => True) (correlate l) s
      (fun _ t => ∃ m : BitMatrix, m.height = s.matrix.height ∧
        t = { s with phase := .transpose, matrix := m })
      fun _ t => t = { s with phase := .transpose } := by
  simp [correlate, advance, hphase]
  intro u _ _ _ hlength m hm
  have hsquares : s.matrix.squares.length = u.squares.length := by
    have hheight := checkLength_ok hlength
    rw [BitMatrix.height, BitMatrix.height] at hheight
    omega
  obtain ⟨_, heq, hkept, -⟩ := BitMatrix.addWhere_eq s.delta hsquares
  cases hm.symm.trans heq
  rw [BitMatrix.height, hkept, BitMatrix.height]

theorem always_check (hphase : s.phase = .check) :
    Always (fun _ => True) (check l) s (fun _ t => t = { s with phase := .hash })
      fun _ t => t = { s with phase := .hash } := by
  simp [check, advance, hphase, challenges, CoinToss.always_pairwise]

/-- **What a sender does with a call.** -/
theorem answers_of_ends {c : Request} {r : Except Failure (Option (List (Block × Block)))}
    (hs : s.streams.length = 128) (hfits : c.Fits) (hphase : s.phase = c.phase)
    (h : Ends (c.toCall.run l) s es r t) : Side.Answers .sender s c es r t := by
  have htakes : Side.Takes .sender s c := ⟨hphase, trivial⟩
  cases c with
  | expand n =>
    obtain ⟨o, rfl, ho⟩ := h.of_map
    by_cases hroom : HasRoom n
    · obtain ⟨rfl, rfl, rfl⟩ := (ends_of_start (start_expand hphase hs hroom)).mp ho
      have hstep := @Account.Step.begun (Side.account .sender s) n hphase hroom
      rw [← height_expanded s] at hstep
      exact .quiet htakes ((length_map _).trans hs) hstep
    · obtain ⟨rfl, rfl, rfl⟩ :=
        (ends_of_start (start_expand_fault hphase hfits hroom)).mp ho
      exact .quiet htakes hs (.noRoom hphase hroom)
  | correlate choices =>
    obtain ⟨o, rfl, ho⟩ := h.of_map
    have hended := (always_correlate hphase).of_ends ho
    cases o with
    | ok _ =>
      obtain ⟨m, hm, rfl⟩ := hended
      refine .quiet htakes hs ?_
      rw [Side.account, Side.account, hm]
      exact .correlated hphase
    | error e =>
      cases hended
      exact .quiet htakes hs (.correlated hphase)
  | transpose =>
    obtain ⟨o, rfl, ho⟩ := h.of_map
    obtain ⟨rfl, rfl, rfl⟩ := (ends_of_start (start_transpose hphase)).mp ho
    refine .quiet htakes hs ?_
    rw [Side.account, Side.account, BitMatrix.height_transpose]
    exact .transposed hphase
  | check =>
    obtain ⟨o, rfl, ho⟩ := h.of_map
    obtain rfl : t = { s with phase := .hash } := by
      cases o <;> exact (always_check hphase).of_ends ho
    exact .quiet htakes hs (.checked hphase)
  | hash =>
    obtain ⟨o, rfl, ho⟩ := h.of_map
    rcases Nat.lt_or_ge s.matrix.height s.size with hsize | hsize
    · obtain ⟨rfl, rfl, rfl⟩ := (ends_of_start (start_hash_fault hphase hsize)).mp ho
      exact .taken _ htakes hs (.lost hphase hsize) rfl
    · obtain ⟨rfl, rfl, rfl⟩ := (ends_of_start (start_hash_outputs hphase hsize)).mp ho
      exact .taken _ htakes hs (.hashed hphase hsize) rfl

end Sender

namespace Receiver

variable {l : LinkEnd} {s t : Receiver} {es : List Event}

theorem start_expand_fault {n : Nat} (hphase : s.phase = .expand) (hfits : (Request.expand n).Fits)
    (hroom : ¬ HasRoom n) : (expand n).start s
      = .done (.error .fault, { s with phase := .correlate, size := n }) := by
  obtain ⟨rows, hrows, hzeros⟩ := exists_rows hfits hroom
  simp [expand, advance, start_bind, hphase, hrows, hzeros]

theorem start_hash_fault (hphase : s.phase = .hash) (hsize : s.matrix.height < s.size) :
    hash.start s = .done (.error .fault, { s with phase := .expand }) := by
  simp [hash, advance, start_bind, hphase, hsize]

/-- The blocks of a batch are its rows, hashed with the tweaks from the counter on. -/
theorem start_hash_outputs (hphase : s.phase = .hash) (hsize : s.size ≤ s.matrix.height) :
    hash.start s = .done (.ok (Side.outputs .receiver s (range' s.counter s.size)),
      { s with phase := .expand, counter := s.counter + s.matrix.height, matrix := .empty }) := by
  have hplain := TweakedHash.hashFrom_rows s.counter hsize id
  rw [map_id] at hplain
  rw [start_hash hphase hsize, hplain]
  rfl

theorem height_expanded (s : Receiver) {n : Nat} :
    (s.expanded n).matrix.height = squaresFor n * 128 := by
  rw [expanded, BitMatrix.height, BitMatrix.length_ofStreams]

/-- What the choice bits leave alone: the account but for the phase, and the streams. -/
theorem always_correlate {choices : BitString} (hphase : s.phase = .correlate)
    (hsize : s.size = choices.length) :
    Always (fun _ => True) (correlate l choices) s
      (fun _ t => Side.account .receiver t = { Side.account .receiver s with phase := .transpose } ∧
        t.zeros = s.zeros ∧ t.ones = s.ones)
      fun _ t => Side.account .receiver t = { Side.account .receiver s with phase := .transpose } ∧
        t.zeros = s.zeros ∧ t.ones = s.ones := by
  simp [correlate, hsize, BitMatrix.checkLength_self, advance, hphase, pad, drawChoices, tie, Side.account]
  intro _ bytes _
  split <;> simp

theorem always_check (hphase : s.phase = .check) :
    Always (fun _ => True) (check l) s (fun _ t => t = { s with phase := .hash })
      fun _ t => t = { s with phase := .hash } := by
  simp [check, advance, hphase, challenges, CoinToss.always_pairwise]

/-- A call out of order has no effect. -/
theorem start_refused {α β : Type} {now next : Phase} {work : Unit → Session Receiver α} {f : α → β}
    (hphase : s.phase ≠ now) : (f <$> (advance now next >>= work)).start s
      = .done (.error (.error (.misuse .receiverOrder)), s) := by
  rw [Session.start_map, start_bind, advance,
    Session.start_bind_of_done (Session.start_get s), if_neg hphase]
  rfl

/-- **What a receiver does with a call.** -/
theorem answers_of_ends {c : Request} {r : Except Failure (Option (List Block))}
    (hs : s.zeros.length = 128 ∧ s.ones.length = 128) (hfits : c.Fits)
    (htakes : Side.Takes .receiver s c) (h : Ends (Side.run .receiver l c) s es r t) :
    Side.Answers .receiver s c es r t := by
  have hphase := htakes.1
  cases c with
  | expand n =>
    obtain ⟨o, rfl, ho⟩ := h.of_map
    by_cases hroom : HasRoom n
    · obtain ⟨rfl, rfl, rfl⟩ := (ends_of_start (start_expand hphase hs.1 hs.2 hroom)).mp ho
      have hstep := @Account.Step.begun (Side.account .receiver s) n hphase hroom
      rw [← height_expanded s] at hstep
      exact .quiet htakes ⟨(length_map _).trans hs.1, (length_map _).trans hs.2⟩ hstep
    · obtain ⟨rfl, rfl, rfl⟩ :=
        (ends_of_start (start_expand_fault hphase hfits hroom)).mp ho
      exact .quiet htakes hs (.noRoom hphase hroom)
  | correlate choices =>
    obtain ⟨o, rfl, ho⟩ := h.of_map
    obtain ⟨haccount, hzeros, hones⟩ : Side.account .receiver t
        = { Side.account .receiver s with phase := .transpose } ∧
          t.zeros = s.zeros ∧ t.ones = s.ones := by
      cases o <;> exact (always_correlate hphase htakes.2.symm).of_ends ho
    refine .quiet htakes (show _ ∧ _ by rwa [hzeros, hones]) ?_
    rw [haccount]
    exact .correlated hphase
  | transpose =>
    obtain ⟨o, rfl, ho⟩ := h.of_map
    obtain ⟨rfl, rfl, rfl⟩ := (ends_of_start (start_transpose hphase)).mp ho
    refine .quiet htakes hs ?_
    rw [Side.account, Side.account, BitMatrix.height_transpose]
    exact .transposed hphase
  | check =>
    obtain ⟨o, rfl, ho⟩ := h.of_map
    obtain rfl : t = { s with phase := .hash } := by
      cases o <;> exact (always_check hphase).of_ends ho
    exact .quiet htakes hs (.checked hphase)
  | hash =>
    obtain ⟨o, rfl, ho⟩ := h.of_map
    rcases Nat.lt_or_ge s.matrix.height s.size with hsize | hsize
    · obtain ⟨rfl, rfl, rfl⟩ := (ends_of_start (start_hash_fault hphase hsize)).mp ho
      exact .taken _ htakes hs (.lost hphase hsize) rfl
    · obtain ⟨rfl, rfl, rfl⟩ := (ends_of_start (start_hash_outputs hphase hsize)).mp ho
      exact .taken _ htakes hs (.hashed hphase hsize) rfl

end Receiver

namespace Side

variable {side : Side} {s t : side.State}

/-- An end that has just been made has its streams, and its account is empty. -/
theorem Fresh.seeded (h : side.Fresh s) : side.Seeded s ∧ side.account s = ⟨.expand, 0, 0, 0⟩ := by
  cases side with
  | sender =>
    obtain ⟨delta, seeds, passive, hs⟩ := h
    by_cases hdelta : 128 = delta.length
    · by_cases hseeds : 128 = seeds.length
      · rw [Sender.ofSeeds_eq hdelta.symm hseeds.symm] at hs
        cases hs
        exact ⟨hseeds.symm, rfl⟩
      · simp [Sender.ofSeeds, checkLength, ← hdelta, hseeds, bind, Except.bind] at hs
    · simp [Sender.ofSeeds, checkLength, hdelta, bind, Except.bind] at hs
  | receiver =>
    obtain ⟨seeds, passive, hs⟩ := h
    by_cases hseeds : 128 = seeds.length
    · rw [Receiver.ofSeeds, ← hseeds, BitMatrix.checkLength_self] at hs
      cases hs
      exact ⟨⟨(length_map _).trans hseeds.symm, (length_map _).trans hseeds.symm⟩, rfl⟩
    · simp [Receiver.ofSeeds, checkLength, hseeds, bind, Except.bind] at hs

/-- A call that is not taken has no effect. -/
theorem exists_start_refused {l : LinkEnd} {c : Request} (h : ¬ side.Takes s c) :
    ∃ e, (side.run l c).start s = .done (.error (.error e), s) := by
  cases side with
  | sender =>
    have hphase : s.phase ≠ c.phase := fun hphase => h ⟨hphase, trivial⟩
    cases c <;> exact ⟨_, Sender.start_refused hphase⟩
  | receiver =>
    cases c with
    | correlate choices =>
      -- the number of choice bits is looked at before the phase
      by_cases hsize : s.size = choices.length
      · have hphase : s.phase ≠ .correlate := fun hphase => h ⟨hphase, hsize.symm⟩
        refine ⟨.misuse .receiverOrder, ?_⟩
        simp [run, Receiver.correlate, Receiver.advance, hsize, BitMatrix.checkLength_self,
          start_bind, hphase]
      · refine ⟨.length s.size choices.length, ?_⟩
        simp [run, Receiver.correlate, checkLength, hsize, start_bind]
    | expand _ | transpose | check | hash =>
      exact ⟨_, Receiver.start_refused fun hphase => h ⟨hphase, trivial⟩⟩

/-- **A call is refused or taken**, at either end. -/
theorem ends_run {l : LinkEnd} {c : Request} {es : List Event}
    {r : Except Failure (Option (List side.Output))} (hs : side.Seeded s) (hfits : c.Fits)
    (h : Ends (side.run l c) s es r t) : side.Answers s c es r t := by
  by_cases htakes : side.Takes s c
  · cases side with
    | sender => exact Sender.answers_of_ends hs hfits htakes.1 h
    | receiver => exact Receiver.answers_of_ends hs hfits htakes h
  · obtain ⟨e, hstart⟩ := exists_start_refused (l := l) htakes
    obtain ⟨rfl, rfl, rfl⟩ := (ends_of_start hstart).mp h
    exact .refused e htakes

end Side

end Transfer

end Beaver
