import Beaver.Proofs.Faults.Evaluations
import Beaver.Proofs.Multiplier.Sessions

/-!
# Multipliers with guards

A multiplier works with one peer, who sends everything that it receives.  A job that
memory has room for comes to its output or to an error, whatever arrives and however the
jobs before it ended (`guards_process`), and so does the setup before the first job
(`guards_setup`).
-/

namespace Beaver

open Session (check mapM_check total)
open List
open ShareRing LinearEvaluation
open Session (Guards Leaves)

/-- The full batches of a size that must not be zero; a rest is left out. -/
def exactBatches? {α : Type} (n : Nat) (xs : List α) : Option (List (List α)) :=
  if n = 0 then none else some ((batches n xs).filter fun part => part.length = n)

theorem exactBatches?_eq {α : Type} {n m : Nat} (hn : 0 < n) {xs : List α}
    (hxs : xs.length = m * n) : exactBatches? n xs = some (batches n xs) := by
  have hfull : n ∣ xs.length → ∀ part ∈ batches n xs, part.length = n := by
    refine batches_induction (P := fun xs bs => n ∣ xs.length → ∀ part ∈ bs, part.length = n) hn
      (by simp) ?_ xs
    intro xs hne ih hdvd part hpart
    have hle : n ≤ xs.length := Nat.le_of_dvd (length_pos_iff.mpr hne) hdvd
    rcases mem_cons.mp hpart with rfl | hpart
    · rw [length_take, Nat.min_eq_left hle]
    · refine ih ?_ part hpart
      rw [length_drop]
      exact Nat.dvd_sub hdvd (Nat.dvd_refl n)
  rw [exactBatches?, if_neg (by omega), filter_eq_self.mpr]
  intro part hpart
  exact decide_eq_true (hfull ⟨m, by rw [hxs, Nat.mul_comm]⟩ part hpart)

theorem Transfer.HasRoom.lt_word {n : Nat} (h : HasRoom n) : n < 2 ^ 64 := by
  obtain ⟨-, -, -, -, -, hword⟩ := h.exists_blank
  exact Nat.lt_of_le_of_lt (length_le_height n) hword

namespace Multiplier

section Products

variable {σ τ : Type} [ShareRing τ] [WordRing τ]

/-- The bits of an element, each of them looked up. -/
def elementBits? (x : τ) : Option (List Bool) :=
  (range (bits τ)).mapM (WordRing.bit? x)

/-- A share of the product of `b` with what the correction hides. -/
def Guarded.productReceived (chosen : List Block) (u : Rectangle τ τ) (b : τ) : Session σ τ := do
  let rows : Rectangle τ τ ← check (Rectangle.ofBlocks chosen)
  let corrected ← Session.total (rows.addWhere? b u)
  Session.total corrected.weigh?

/-- The correction that hides `a`, with this party's share of the product. -/
def Guarded.productSent (pairs : List (Block × Block)) (a : τ) :
    Session σ (Rectangle τ τ × τ) := do
  let m0 : Rectangle τ τ ← check (Rectangle.ofBlocks (pairs.map (·.1)))
  let m1 : Rectangle τ τ ← check (Rectangle.ofBlocks (pairs.map (·.2)))
  let difference ← Session.total (m0.zipRows? (fun _ => WordRing.sub?) m1)
  let same : Rectangle τ τ ← check (Rectangle.ofRows (replicate (bits τ) a))
  let u ← Session.total (difference.zipRows? (fun _ => WordRing.add?) same)
  let share ← Session.total (m0.weigh?.bind WordRing.neg?)
  pure (u, share)

theorem elementBits?_eq (x : τ) : elementBits? x = some (elementBits x) :=
  mapM_eq_some fun _ hi => WordRing.bit?_eq x (mem_range.mp hi)

variable [LawfulShareRing τ]

theorem guarded_productReceived (chosen : List Block) (u : Rectangle τ τ) (b : τ) :
    (Guarded.productReceived chosen u b : Session σ τ)
      = check (productReceived chosen u b) := by
  rw [Guarded.productReceived, productReceived]
  cases (Rectangle.ofBlocks chosen : Except Error (Rectangle τ τ)) with
  | error e => rfl
  | ok rows =>
    simp only [Rectangle.addWhere?_eq, Rectangle.weigh?_eq (Nat.le_refl _)]
    rfl

theorem guarded_productSent (pairs : List (Block × Block)) (a : τ) :
    (Guarded.productSent pairs a : Session σ (Rectangle τ τ × τ))
      = check (productSent pairs a) := by
  rw [Guarded.productSent, productSent]
  cases (Rectangle.ofBlocks (pairs.map (·.1)) : Except Error (Rectangle τ τ)) with
  | error e => rfl
  | ok m0 =>
    cases (Rectangle.ofBlocks (pairs.map (·.2)) : Except Error (Rectangle τ τ)) with
    | error e => rfl
    | ok m1 =>
      simp only [Rectangle.zipRows?_sub, Rectangle.zipRows?_add,
        Rectangle.weigh?_eq (Nat.le_refl _), Option.bind_some, WordRing.neg?_eq]
      cases (Rectangle.ofRows (replicate (bits τ) a) : Except Error (Rectangle τ τ)) with
      | error e => rfl
      | ok same => rfl

end Products

section Steps

variable {σ τ μ : Type} [ShareRing τ] [ShareRing μ] [WordRing τ] [WordRing μ]

namespace Guarded

/-- Shares of the products of the peer's values with `b`. -/
def multiplyReceiving (l : LinkEnd) (b : List τ) : Session (Multiplier μ) (List τ) := do
  let choices ← Session.total (b.mapM elementBits?)
  let chosen ← receiving (Transfer.Receiver.Guarded.receive l (.ofBits choices.flatten))
  let corrections ← l.recvList "Gilboa_u" (Rectangle.wire τ τ) b.length
  let chunks ← Session.total (exactBatches? (bits τ) chosen)
  (chunks.zip (corrections.zip b)).mapM fun p => productReceived p.1 p.2.1 p.2.2

/-- Shares of the products of `a` with the peer's values. -/
def multiplySending (l : LinkEnd) (a : List τ) : Session (Multiplier μ) (List τ) := do
  let n ← Session.total (inWord? (a.length * bits τ))
  let pairs ← sending (Transfer.Sender.Guarded.send l n)
  let chunks ← Session.total (exactBatches? (bits τ) pairs)
  let sent ← (chunks.zip a).mapM fun p => productSent p.1 p.2
  l.send (Rectangle.wire τ τ).list (sent.map (·.1))
  pure (sent.map (·.2))

/-- Shares of the products of each party's `a` with the other's `b`. -/
def crossProducts (l : LinkEnd) (a b : List τ) : Session (Multiplier μ) (List τ) := do
  Session.check (checkLength a.length b.length)
  let (received, sent) ← inOrder l (multiplyReceiving l b) (multiplySending l a)
  Session.total ((received.zip sent).mapM fun p => WordRing.add? p.1 p.2)

/-- Shares of the peer's key times this party's values. -/
def authenticateMine (l : LinkEnd) (values : List μ) : Session (Authenticator μ) (List μ) :=
  (InputHolder.Guarded.evaluate l values).zoom (·.input) fun input a => { a with input }

/-- Shares of this party's key times the peer's `n` values. -/
def authenticateTheirs (l : LinkEnd) (n : Nat) : Session (Authenticator μ) (List μ) :=
  (KeyHolder.Guarded.evaluate l n).zoom (·.key) fun key a => { a with key }

/-- Transfers for the bits of the keys of both parties, and what is built on them. -/
def setupKey (l : LinkEnd) (key : μ) (passive : Bool) : Session (Multiplier μ) Unit := do
  let choices ← Session.total (elementBits? key)
  let (chosen, pairs) ← inOrder l
    (receiving (Transfer.Receiver.Guarded.receive l (.ofBits choices)))
    (sending (Transfer.Sender.Guarded.send l (bits μ)))
  let input ← check (InputHolder.ofSeeds μ pairs passive)
  let key ← check (KeyHolder.ofSeeds key chosen passive)
  modify ({ · with auth := some ⟨input, key⟩ })

/-- Sets up a multiplier from base transfers; with a key, it can authenticate. -/
def setup (l : LinkEnd) (seeds : Transfer.Seeds) (key : Option μ) (passive : Bool) :
    Session σ (Multiplier μ) := do
  let receiver ← check (Transfer.Receiver.ofSeeds seeds.sent passive)
  let sender ← check (Transfer.Sender.ofSeeds seeds.choices seeds.received passive)
  let m : Multiplier μ := ⟨receiver, sender, none⟩
  match key with
  | none => pure m
  | some key =>
    let (_, m) ← Session.borrow (setupKey l key passive) m
    pure m

variable [Lift τ μ]

/-- Shares of each party's key times the other's values. -/
def authenticate (l : LinkEnd) (values : List τ) : Session (Multiplier μ) (List μ) := do
  let (mine, theirs) ← authenticating <| inOrder l
    (authenticateMine l (values.map Lift.lift)) (authenticateTheirs l values.length)
  Session.total ((mine.zip theirs).mapM fun p => WordRing.add? p.1 p.2)

/-- Shares of the tags of one party's inputs; they are zero between two others. -/
def authenticateInput (l : LinkEnd) (owner : Nat) (values : List τ) :
    Session (Multiplier μ) (List μ) := do
  if owner ≠ l.me ∧ owner ≠ l.peer then
    let zeros : Row μ ← Session.total (Row.zeros? values.length)
    pure zeros.values
  else if owner = l.me then authenticating (authenticateMine l (values.map Lift.lift))
  else authenticating (authenticateTheirs l values.length)

/-- Runs a job with the peer. -/
def process (l : LinkEnd) : Job τ → Session (Multiplier μ) (Output τ μ)
  | .triple a b => .products <$> crossProducts l a b
  | .square a => .products <$> crossProducts l a a
  | .input owner values => .tags <$> authenticateInput l owner values
  | .authenticate values => .tags <$> authenticate l values

end Guarded

end Steps

end Multiplier

/-- No stream has gone further than `i` evaluations of this party's values, and `j` of the
peer's, can take it. -/
structure Authenticator.Within {μ : Type} [ShareRing μ] (i j : Nat) (a : Authenticator μ) :
    Prop where
  input : a.input.Within μ i
  key : a.key.Within j

/-- No counter has gone further than `i` batches that were received, `j` batches that were
sent and `k` evaluations in each direction can take it. -/
structure Multiplier.Within {μ : Type} [ShareRing μ] (i j k : Nat) (m : Multiplier μ) : Prop where
  receiver : m.receiver.Within i
  sender : m.sender.Within j
  auth : ∀ a ∈ m.auth, a.Within k k

theorem Authenticator.Within.mono {μ : Type} [ShareRing μ] {i j i' j' : Nat} {a : Authenticator μ}
    (h : a.Within i j) (hi : i ≤ i') (hj : j ≤ j') : a.Within i' j' :=
  ⟨h.input.mono hi, h.key.mono hj⟩

namespace Multiplier

variable {μ : Type} {m : Multiplier μ}

theorem Within.mono [ShareRing μ] {i j k i' j' k' : Nat} (h : m.Within i j k) (hi : i ≤ i')
    (hj : j ≤ j') (hk : k ≤ k') : m.Within i' j' k' :=
  ⟨h.receiver.mono hi, h.sender.mono hj, fun a ha => (h.auth a ha).mono hk hk⟩

theorem Within.succ [ShareRing μ] {k : Nat} (h : m.Within k k k) :
    m.Within (k + 1) (k + 1) (k + 1) :=
  h.mono (Nat.le_succ k) (Nat.le_succ k) (Nat.le_succ k)

/-- **The two halves of a step.**  `I x y` says how the state is when `x` says whether the
first half is done, and `y` whether the second is. -/
theorem guards_inOrder {σ α β : Type} {l : LinkEnd} {s : σ} {g₁ p₁ : Session σ α}
    {g₂ p₂ : Session σ β} {I : Bool → Bool → σ → Prop} {inv : σ → Prop}
    (h₁ : ∀ y t, I false y t → Guards t g₁ p₁ (fun _ u => I true y u) inv)
    (h₂ : ∀ x t, I x false t → Guards t g₂ p₂ (fun _ u => I x true u) inv)
    (hs : I false false s) :
    Guards s (inOrder l g₁ g₂) (inOrder l p₁ p₂) (fun _ t => I true true t) inv := by
  refine .ite (fun _ => ?_) fun _ => ?_
  · refine (h₁ false s hs).andThen fun a t ht => ?_
    exact (h₂ true t ht).andThen fun b u hu => .pure hu
  · refine (h₂ false s hs).andThen fun b t ht => ?_
    exact (h₁ true t ht).andThen fun a u hu => .pure hu

section Transfers

variable {μ : Type} [ShareRing μ] {m : Multiplier μ} {i j k n : Nat} {l : LinkEnd}

theorem guards_receiving {v : BitString} (hroom : Transfer.HasRoom v.length) (hi : i < 2 ^ 64)
    (hm : m.Within i j k) :
    Guards m (receiving (Transfer.Receiver.Guarded.receive l v))
      (receiving (Transfer.Receiver.receive l v))
      (fun out t => out.length = v.length ∧ t.Within (i + 1) j k) (Within (i + 1) j k) := by
  refine .zoom ((Transfer.Receiver.guards_receive hroom hi hm.receiver).mono ?_ ?_)
  · intro out r hr
    exact ⟨hr.1, hr.2, hm.sender, hm.auth⟩
  · intro r hr
    exact ⟨hr, hm.sender, hm.auth⟩

theorem guards_sending (hroom : Transfer.HasRoom n) (hj : j < 2 ^ 64) (hm : m.Within i j k) :
    Guards m (sending (Transfer.Sender.Guarded.send l n)) (sending (Transfer.Sender.send l n))
      (fun out t => out.length = n ∧ t.Within i (j + 1) k) (Within i (j + 1) k) := by
  refine .zoom ((Transfer.Sender.guards_send hroom hj hm.sender).mono ?_ ?_)
  · intro out s hs
    exact ⟨hs.1, hm.receiver, hs.2, hm.auth⟩
  · intro s hs
    exact ⟨hm.receiver, hs, hm.auth⟩

variable {r : RingName}
variable {b a : List r.Carrier}

theorem guards_multiplyReceiving (hroom : Transfer.HasRoom (b.length * bits r.Carrier))
    (hi : i < 2 ^ 64) (hm : m.Within i j k) :
    Leaves m (Guarded.multiplyReceiving l b) (multiplyReceiving l b) (Within (i + 1) j k) := by
  have hchoices : (BitString.ofBits (b.flatMap elementBits)).length = b.length * bits r.Carrier := by
    simp [BitString.ofBits, elementBits, length_flatMap]
  refine .guard (mapM_eq_some fun x _ => elementBits?_eq x) ?_
  rw [← flatMap_def]
  refine (guards_receiving (hchoices ▸ hroom) hi hm).andThen fun chosen t ht => ?_
  obtain ⟨hchosen, ht⟩ := ht
  refine .bind (LinkEnd.guards_recvList (fun corrections _ => ?_) ht)
  refine .guard (exactBatches?_eq r.bits_pos (hchosen.trans hchoices)) ?_
  simp only [guarded_productReceived, Session.mapM_check]
  exact .check (fun _ _ => ht) ht

theorem guards_multiplySending (hroom : Transfer.HasRoom (a.length * bits r.Carrier))
    (hj : j < 2 ^ 64) (hm : m.Within i j k) :
    Leaves m (Guarded.multiplySending l a) (multiplySending l a) (Within i (j + 1) k) := by
  refine .guard (inWord?_eq hroom.lt_word) ?_
  refine (guards_sending hroom hj hm).andThen fun pairs t ht => ?_
  obtain ⟨hpairs, ht⟩ := ht
  refine .guard (exactBatches?_eq r.bits_pos hpairs) ?_
  simp only [guarded_productSent, Session.mapM_check]
  exact .bind (.check (fun sent _ => LinkEnd.guards_sendThen (.pure ht)) ht)

/-- Products need transfers in both directions, and no evaluations. -/
theorem guards_crossProducts (hroom : Transfer.HasRoom (a.length * bits r.Carrier))
    (hk : k < 2 ^ 64) (hm : m.Within k k k) :
    Leaves m (Guarded.crossProducts l a b) (crossProducts l a b)
      (Within (k + 1) (k + 1) (k + 1)) := by
  have hle : ∀ x : Bool, k + x.toNat ≤ k + 1 := fun x => Nat.add_le_add_left (Bool.toNat_le x) k
  refine .bind (.check (fun _ hlength => ?_) hm.succ)
  have hb := (checkLength_ok hlength).symm
  have hhalves : Guards m (inOrder l (Guarded.multiplyReceiving l b) (Guarded.multiplySending l a))
      (inOrder l (multiplyReceiving l b) (multiplySending l a)) (fun _ u => u.Within (k + 1) (k + 1) k)
      (Within (k + 1) (k + 1) (k + 1)) := by
    refine guards_inOrder (I := fun x y => Within (k + x.toNat) (k + y.toNat) k) ?_ ?_ hm
    · intro y u hu
      exact Guards.mono (guards_multiplyReceiving (hb ▸ hroom) hk hu) (fun _ _ h => h)
        fun _ h => h.mono (Nat.le_refl _) (hle y) (Nat.le_succ k)
    · intro x u hu
      exact Guards.mono (guards_multiplySending hroom hk hu) (fun _ _ h => h)
        fun _ h => h.mono (hle x) (Nat.le_refl _) (Nat.le_succ k)
  refine hhalves.andThen fun halves u hu => ?_
  dsimp only
  rw [mapM_zip_eq_some (f := WordRing.add?) WordRing.add?_eq]
  exact .pure (hu.mono (Nat.le_refl _) (Nat.le_refl _) (Nat.le_succ k))

end Transfers

section Evaluations

variable {r v : RingName} [Lift v.Carrier r.Carrier] {m : Multiplier r.Carrier} {i j k n : Nat}
variable {l : LinkEnd}
variable {a : Authenticator r.Carrier} {values : List v.Carrier} {passive : Bool}

theorem guards_authenticateMine {values : List r.Carrier}
    (hroom : values.length * bytes r.Carrier < memoryLimit) (hi : i < 2 ^ 64) (ha : a.Within i j) :
    Leaves a (Guarded.authenticateMine l values) (authenticateMine l values)
      (Authenticator.Within (i + 1) j) :=
  .zoom ((InputHolder.guards_evaluate hroom hi ha.input).mono fun _ h => ⟨h, ha.key⟩)

theorem guards_authenticateTheirs (hroom : n * bytes r.Carrier < memoryLimit) (hj : j < 2 ^ 64)
    (ha : a.Within i j) :
    Leaves a (Guarded.authenticateTheirs l n) (authenticateTheirs l n)
      (Authenticator.Within i (j + 1)) :=
  .zoom ((KeyHolder.guards_evaluate hroom hj ha.key).mono fun _ h => ⟨ha.input, h⟩)

/-- Without a key there are no evaluations, and that is an error. -/
theorem guards_authenticating {α : Type} {g p : Session (Authenticator r.Carrier) α}
    (hm : m.Within k k k)
    (h : ∀ a : Authenticator r.Carrier, a.Within k k →
      Leaves a g p (Authenticator.Within (k + 1) (k + 1))) :
    Leaves m (authenticating g) (authenticating p) (Within (k + 1) (k + 1) (k + 1)) := by
  have hnext := hm.succ
  obtain ⟨receiver, sender, auth⟩ := m
  refine .getThen ?_
  cases auth with
  | none => exact .fail hnext
  | some auth =>
    have hafter : ∀ b : Authenticator r.Carrier, b.Within (k + 1) (k + 1) →
        Within (k + 1) (k + 1) (k + 1) (⟨receiver, sender, some b⟩ : Multiplier r.Carrier) := by
      intro b hb
      refine ⟨hnext.receiver, hnext.sender, fun a ha => ?_⟩
      cases ha
      exact hb
    exact .zoom ((h auth (hm.auth auth rfl)).mono hafter)

theorem guards_authenticate (hroom : values.length * bytes r.Carrier < memoryLimit)
    (hk : k < 2 ^ 64) (hm : m.Within k k k) :
    Leaves m (Guarded.authenticate l values) (authenticate l values)
      (Within (k + 1) (k + 1) (k + 1)) := by
  have hle : ∀ x : Bool, k + x.toNat ≤ k + 1 := fun x => Nat.add_le_add_left (Bool.toNat_le x) k
  have hlifted : (values.map (Lift.lift : v.Carrier → r.Carrier)).length * bytes r.Carrier
      < memoryLimit := by rwa [length_map]
  refine .bind (Guards.mono (guards_authenticating hm fun a ha => ?_) (fun shares t ht => ?_)
    fun _ h => h)
  · refine guards_inOrder (I := fun x y => Authenticator.Within (k + x.toNat) (k + y.toNat)) ?_ ?_ ha
    · intro y b hb
      exact Guards.mono (guards_authenticateMine hlifted hk hb) (fun _ _ h => h)
        fun _ h => h.mono (Nat.le_refl _) (hle y)
    · intro x b hb
      exact Guards.mono (guards_authenticateTheirs hroom hk hb) (fun _ _ h => h)
        fun _ h => h.mono (hle x) (Nat.le_refl _)
  · dsimp only
    rw [mapM_zip_eq_some (f := WordRing.add?) WordRing.add?_eq]
    exact .pure ht

theorem guards_authenticateInput {owner : Nat}
    (hroom : values.length * bytes r.Carrier < memoryLimit) (hk : k < 2 ^ 64)
    (hm : m.Within k k k) :
    Leaves m (Guarded.authenticateInput l owner values) (authenticateInput l owner values)
      (Within (k + 1) (k + 1) (k + 1)) := by
  refine .ite (fun _ => ?_) fun _ => .ite (fun _ => ?_) fun _ => ?_
  · exact .guard (Row.zeros?_eq hroom) (.pure hm.succ)
  · refine guards_authenticating hm fun a ha => ?_
    have hlifted : (values.map (Lift.lift : v.Carrier → r.Carrier)).length * bytes r.Carrier
        < memoryLimit := by rwa [length_map]
    exact (guards_authenticateMine hlifted hk ha).mono
      fun _ h => h.mono (Nat.le_refl _) (Nat.le_succ k)
  · refine guards_authenticating hm fun a ha => ?_
    exact (guards_authenticateTheirs hroom hk ha).mono
      fun _ h => h.mono (Nat.le_succ k) (Nat.le_refl _)

/-- **A job never faults**, whatever arrives. -/
theorem guards_process {job : Job v.Carrier} (hroom : job.HasRoom r.Carrier) (hk : k < 2 ^ 64)
    (hm : m.Within k k k) :
    Leaves m (Guarded.process l job) (process l job) (Within (k + 1) (k + 1) (k + 1)) := by
  cases job with
  | triple a b => exact (guards_crossProducts hroom hk hm).map fun _ _ h => h
  | square a => exact (guards_crossProducts hroom hk hm).map fun _ _ h => h
  | input owner values => exact (guards_authenticateInput hroom hk hm).map fun _ _ h => h
  | authenticate values => exact (guards_authenticate hroom hk hm).map fun _ _ h => h

omit [Lift v.Carrier r.Carrier]

theorem guards_setupKey {key : r.Carrier} (hm : m.Within 0 0 0) :
    Guards m (Guarded.setupKey l key passive) (setupKey l key passive)
      (fun _ t => t.Within 1 1 1) fun _ => True := by
  have hchoices : (BitString.ofBits (elementBits key)).length = bits r.Carrier := by
    simp [BitString.ofBits, elementBits]
  refine .guard (elementBits?_eq key) ?_
  have hhalves : Guards m
      (inOrder l (receiving (Transfer.Receiver.Guarded.receive l (.ofBits (elementBits key))))
        (sending (Transfer.Sender.Guarded.send l (bits r.Carrier))))
      (inOrder l (receiving (Transfer.Receiver.receive l (.ofBits (elementBits key))))
        (sending (Transfer.Sender.send l (bits r.Carrier))))
      (fun _ t => t.Within 1 1 0) fun _ => True := by
    refine guards_inOrder (I := fun x y => Within x.toNat y.toNat 0) ?_ ?_ hm
    · intro y u hu
      exact (guards_receiving (hchoices ▸ hasRoom_bits r) (by decide) hu).mono (fun _ _ h => h.2)
        fun _ _ => trivial
    · intro x u hu
      exact (guards_sending (hasRoom_bits r) (by decide) hu).mono (fun _ _ h => h.2)
        fun _ _ => trivial
  refine hhalves.andThen fun blocks t ht => ?_
  dsimp only
  refine .bind (.check (fun input hinput => .bind (.check (fun holder hholder => ?_) trivial)) trivial)
  refine .modify ⟨ht.receiver, ht.sender, fun a ha => ?_⟩
  cases ha
  exact ⟨(InputHolder.within_of_ofSeeds hinput).mono (Nat.zero_le 1),
    (KeyHolder.within_of_ofSeeds hholder).mono (Nat.zero_le 1)⟩

/-- **Setting up a multiplier never faults**, whatever arrives. -/
theorem guards_setup {σ : Type} {s : σ} {seeds : Transfer.Seeds} {key : Option r.Carrier}
    (hsent : ∀ p ∈ seeds.sent, p.1.generator.counter = 0 ∧ p.2.generator.counter = 0)
    (hreceived : ∀ stream ∈ seeds.received, stream.generator.counter = 0) :
    Guards s (Guarded.setup l seeds key passive) (setup l seeds key passive)
      (fun m _ => m.Within 1 1 1) fun _ => True := by
  refine .bind (.check (fun receiver hreceiver => .bind (.check (fun sender hsender => ?_) trivial))
    trivial)
  have hnew : Within 0 0 0 (⟨receiver, sender, none⟩ : Multiplier r.Carrier) :=
    ⟨Transfer.Receiver.within_of_ofSeeds hsent hreceiver,
      Transfer.Sender.within_of_ofSeeds hreceived hsender, nofun⟩
  cases key with
  | none => exact .pure hnew.succ
  | some key =>
    exact .bind (.borrow ((guards_setupKey hnew).mono (fun _ _ h => .pure h) fun _ h => h))

end Evaluations

end Multiplier

end Beaver
