import Mathlib
import Beaver.Proofs.BitStrings
import Beaver.Proofs.LinearEvaluation.Sessions
import Beaver.Proofs.Loops
import Beaver.Proofs.NetworkRun
import Beaver.Proofs.Transfer.Batch
import Beaver.Transfer.Base

/-!
# Base transfers give the chosen blocks

In a commutative group the receiver's `x S` with `S = y G` is `y R` if `R = x G`, and `y R - y S`
if `R = x G + S`, so it has the same encoding as one of the sender's two elements.  One direction
of a batch therefore meets with the chosen blocks at the receiver (`meets_send_receive`).

A party that only sends starts with sending, whatever its index, and a party that only receives
has nothing to do in the other direction; if both do both, the indices decide.  So the two ends
never wait for each other (`meets_execute`).
-/

namespace Beaver

open List

/-- A check that has succeeded leaves no trace. -/
theorem Session.check_ok_bind {σ α β : Type} (a : α) (f : α → Session σ β) :
    (check (.ok a) >>= f) = f a :=
  pure_bind a f

namespace Transfer

/-- A number that 64 random bytes stand for. -/
def Group.Factor (g : Group) (n : Nat) : Prop :=
  ∃ bs : Bytes, bs.length = 64 ∧ g.factor bs = n

/-- Elements that stand for those of a commutative group, possibly several for one.  All that
stand for one have the same encoding, of 32 bytes, which can be read again. -/
structure Group.Lawful {A : Type*} [AddCommGroup A] (g : Group) (Stands : g.Element → A → Prop) :
    Prop where
  add {p q : g.Element} {a b : A} (hp : Stands p a) (hq : Stands q b) : Stands (g.add p q) (a + b)
  sub {p q : g.Element} {a b : A} (hp : Stands p a) (hq : Stands q b) : Stands (g.sub p q) (a - b)
  scale {p : g.Element} {a : A} {n : Nat} (hn : g.Factor n) (hp : Stands p a) :
    Stands (g.scale n p) (n • a)
  generator : ∃ base : A, ∀ n, g.Factor n → Stands (g.multiple g.generator n) (n • base)
  table {p : g.Element} {a : A} {n : Nat} (hn : g.Factor n) (hp : Stands p a) :
    Stands (g.multiple (g.table p) n) (n • a)
  encode_eq {p q : g.Element} {a : A} (hp : Stands p a) (hq : Stands q a) : g.encode p = g.encode q
  length_encode {p : g.Element} {a : A} (hp : Stands p a) : (g.encode p).length = 32
  decode_encode {p : g.Element} {a : A} (hp : Stands p a) :
    ∃ q, g.decode? (g.encode p) = some q ∧ Stands q a

/-- The numbers modulo `q`, which are reduced only when they are encoded. -/
def residues (q : Nat) : Group where
  Element := Nat
  Table := Nat
  add m n := m + n
  sub m n := m + (q - n % q)
  scale m n := m * n
  table n := n
  multiple t n := n * t
  generator := 1
  factor bs := Bytes.toNatLE bs % q
  encode n := Bytes.ofNatLE 32 (n % q)
  decode? bs := some (Bytes.toNatLE bs)

variable {q : Nat}

theorem natCast_sub_residue [NeZero q] (m n : Nat) :
    ((m + (q - n % q) : Nat) : ZMod q) = m - n := by
  have hle : n % q ≤ q := (Nat.mod_lt n (NeZero.pos q)).le
  rw [Nat.cast_add, Nat.cast_sub hle, ZMod.natCast_self, ZMod.natCast_mod, zero_sub, sub_eq_add_neg]

theorem toNatLE_ofNatLE_residue {size : Nat} [NeZero q] (hq : q ≤ 256 ^ size) (n : Nat) :
    Bytes.toNatLE (Bytes.ofNatLE size (n % q)) = n % q := by
  have hlt : n % q < 256 ^ size := (Nat.mod_lt n (NeZero.pos q)).trans_le hq
  rw [Bytes.toNatLE_ofNatLE, Nat.pow_eq, Nat.mod_eq_of_lt hlt]

theorem lawful_residues [NeZero q] (hq : q ≤ 256 ^ 32) :
    (residues q).Lawful fun (n : Nat) (x : ZMod q) => (n : ZMod q) = x where
  add := by
    rintro (m n : Nat) _ _ rfl rfl
    exact Nat.cast_add m n
  sub := by
    rintro (m n : Nat) _ _ rfl rfl
    exact natCast_sub_residue m n
  scale := by
    rintro (m : Nat) _ n _ rfl
    exact (Nat.cast_mul n m).trans (nsmul_eq_mul n (m : ZMod q)).symm
  generator := by
    refine ⟨((1 : Nat) : ZMod q), fun n _ => ?_⟩
    exact (Nat.cast_mul n 1).trans (nsmul_eq_mul n ((1 : Nat) : ZMod q)).symm
  table := by
    rintro (m : Nat) _ n _ rfl
    exact (Nat.cast_mul n m).trans (nsmul_eq_mul n (m : ZMod q)).symm
  encode_eq := by
    rintro (m n : Nat) a hm hn
    have hmod : m % q = n % q := (ZMod.natCast_eq_natCast_iff' m n q).mp (hm.trans hn.symm)
    exact congrArg (Bytes.ofNatLE 32) hmod
  length_encode _ := Bytes.length_ofNatLE ..
  decode_encode := by
    rintro (n : Nat) a hn
    refine ⟨(n % q : Nat), ?_, (ZMod.natCast_mod n q).trans hn⟩
    exact congrArg some (toNatLE_ofNatLE_residue hq n)

/-- The element that is read from the encoding of another. -/
def Group.reread (g : Group) (p : g.Element) : g.Element :=
  (g.decode? (g.encode p)).getD p

/-- The role of the other party. -/
def Role.opposite : Role → Role
  | sender => receiver
  | receiver => sender
  | both => both

theorem Role.sends_opposite (r : Role) : r.opposite.sends = r.receives := by
  cases r <;> rfl

namespace Base

section Ends

variable {τ α β : Type} {g : Group} {i j : Nat} {l : LinkEnd} {t u : Tape} {a b : Base} {v : BitString}

/-- Factors are drawn one after the other. -/
theorem draw_factors_right {p : Protocol α} {f : List Nat → Session τ β} {y : τ}
    {post : α → Except Failure β × τ → Tape → Tape → Prop} (n : Nat)
    (h : ∀ xs u, xs.length = n → (∀ x ∈ xs, g.Factor x) →
      Meets i j post p ((f xs).start y) [] [] t u) (u : Tape) :
    Meets i j post p ((drawFactors g n >>= f).start y) [] [] t u := by
  induction n generalizing f u with
  | zero => exact h [] u rfl (by simp)
  | succ n ih =>
    rw [drawFactors, drawFactor]
    simp only [bind_assoc, pure_bind]
    rw [Session.start_draw_bind]
    refine .drawRight ?_
    refine ih (fun xs v hxs hfactors => ?_) u.tail
    refine h _ v (by rw [length_cons, hxs]) ?_
    intro x hx
    obtain rfl | hx := mem_cons.mp hx
    · exact ⟨_, u.length_next 64, rfl⟩
    · exact hfactors x hx

/-- A party has nothing to do in a direction that it does not take part in. -/
theorem start_direction_idle {sending : Bool}
    (h : (if sending then b.role.sends else b.role.receives) = false) :
    (direction g l sending).start b = .done (.ok (), b) := by
  cases sending <;> simp_all [direction, Session.start_bind]

theorem start_direction_sending (h : b.role.sends = true) :
    (direction g l true).start b
      = (send g l b.count >>= fun sent => modify ({ · with sent })).start b := by
  simp [direction, h, Session.start_bind]

theorem start_direction_receiving (h : b.role.receives = true) :
    (direction g l false).start b
      = (receive g l b.choices.bits >>= fun received => modify ({ · with received })).start b := by
  simp [direction, h, Session.start_bind]

/-- What one end sent is what the other chose from, if it sent at all. -/
def Delivered (sender receiver : Base) : Prop :=
  if sender.role.sends then Transferred receiver.choices receiver.received sender.sent
  else sender.sent = [] ∧ receiver.received = []

/-- Two ends after their transfers. -/
structure Agree (a b : Base) : Prop where
  executed : a.executed = true
  executed' : b.executed = true
  delivered : Delivered a b
  delivered' : Delivered b a

theorem Agree.symm (h : Agree a b) : Agree b a :=
  ⟨h.executed', h.executed, h.delivered', h.delivered⟩

/-- An end before its transfers. -/
structure Fresh (b : Base) : Prop where
  executed : b.executed = false
  sent : b.sent = []
  received : b.received = []
  choices : b.choices.WellFormed
  word : b.count < 2 ^ 64

/-- The two directions of an end, in its order. -/
def turns (g : Group) (l : LinkEnd) (sendFirst : Bool) : Session Base Unit := do
  direction g l sendFirst
  direction g l (!sendFirst)
  modify ({ · with executed := true })

/-- An end whose role and choices are those of another. -/
def Kept (b b' : Base) : Prop :=
  b'.role = b.role ∧ b'.choices = b.choices

/-- An end before its turns: its choices are the given ones, or new ones of the same number. -/
structure Started (regenerate : Bool) (b b' : Base) : Prop where
  fresh : b'.Fresh
  role : b'.role = b.role
  count : b'.count = b.count
  choices : regenerate = false → b'.choices = b.choices

/-- What an end does before its turns. -/
theorem execute_left (ha : a.Fresh) {regenerate : Bool} {q : Protocol β}
    {post : Except Failure Unit × Base → β → Tape → Tape → Prop}
    (h : ∀ a' t, Started regenerate a a' →
      Meets i j post ((turns g l (decide (l.me < l.peer) || !a'.role.receives)).start a') q [] [] t u)
    (t : Tape) : Meets i j post ((execute g l regenerate).start a) q [] [] t u := by
  obtain ⟨role, choices, sent, received, executed⟩ := a
  cases ha.executed
  cases regenerate with
  | false => exact h _ t ⟨ha, rfl, rfl, fun _ => rfl⟩
  | true =>
    have hcount : ∀ bytes, (BitString.clearPadding ⟨bytes, choices.length⟩).length = choices.length :=
      fun bytes => (BitString.length_clearPadding _).1
    refine .drawLeft (h _ t.tail ⟨⟨rfl, ha.sent, ha.received, ?_, ?_⟩, rfl, hcount _, nofun⟩)
    · exact BitString.wellFormed_clearPadding (t.length_next _)
    · exact (hcount _).trans_lt ha.word

/-- What an end received is what it chose from what the other sent, if anything was sent. -/
theorem Delivered.received_eq (h : Delivered a b) (hb : b.choices.WellFormed) :
    b.received = chosenKeys a.sent b.choices.bits := by
  unfold Delivered at h
  split at h
  · exact h.received_eq hb
  · rw [h.1, h.2]
    rfl

theorem Delivered.length_sent (h : Delivered a b) :
    a.sent.length = if a.role.sends then b.count else 0 := by
  unfold Delivered at h
  split at h
  · next hsends => rw [if_pos hsends, h.length_sent, count]
  · next hsends => rw [if_neg hsends, h.1, length_nil]

/-- An end of the given role after its transfers. -/
structure Completed (role : Role) (given : BitString) (regenerate : Bool) (b : Base) : Prop where
  role_eq : b.role = role
  choices : b.choices.WellFormed
  count : b.count = given.length
  kept : regenerate = false → b.choices = given

theorem Started.completed {role : Role} {regenerate : Bool} {b' : Base}
    (h : Started regenerate (ofChoices role v) b) (hkept : Kept b b') :
    Completed role v regenerate b' where
  role_eq := hkept.1.trans h.role
  choices := hkept.2 ▸ h.fresh.choices
  count := (congrArg BitString.length hkept.2).trans h.count
  kept hkeep := hkept.2.trans (h.choices hkeep)

theorem fresh_ofChoices (role : Role) (hv : v.WellFormed) (hword : v.length < 2 ^ 64) :
    (ofChoices role v).Fresh :=
  ⟨rfl, rfl, rfl, hv, hword⟩

end Ends

variable {A : Type*} {σ τ : Type} {g : Group} [AddCommGroup A] {Stands : g.Element → A → Prop}
  {i j : Nat} {l l' : LinkEnd}

section Lawful

variable {a b : Base} {x y : Nat} {w : BitString} (hg : g.Lawful Stands)
include hg

theorem decode_encode {p : g.Element} {a : A} (hp : Stands p a) :
    decode g (g.encode p) = .ok (g.reread p) ∧ Stands (g.reread p) a := by
  obtain ⟨q, hq, hstands⟩ := hg.decode_encode hp
  rw [decode, Group.reread, hq]
  exact ⟨rfl, hstands⟩

theorem stands_answer {base a : A} {s : g.Element}
    (hbase : ∀ n, g.Factor n → Stands (g.multiple g.generator n) (n • base)) (hs : Stands s a)
    (hx : g.Factor x) (c : Bool) : Stands (answer g s c x) (x • base + if c then a else 0) := by
  cases c with
  | false => simpa [answer] using hbase x hx
  | true => simpa [answer] using hg.add (hbase x hx) hs

/-- The element that the sender hashes for a choice has the encoding of the one that the receiver
hashes. -/
theorem encode_chosen (hx : g.Factor x) (hy : g.Factor y) (c : Bool) :
    let s := g.multiple g.generator y
    let yr := g.scale y (g.reread (answer g (g.reread s) c x))
    g.encode (if c then g.sub yr (g.scale y s) else yr)
      = g.encode (g.multiple (g.table (g.reread s)) x) := by
  intro s yr
  obtain ⟨base, hbase⟩ := hg.generator
  have hs : Stands s (y • base) := hbase y hy
  have hs' : Stands (g.reread s) (y • base) := (decode_encode hg hs).2
  have hyr : Stands yr (y • (x • base + if c then y • base else 0)) :=
    hg.scale hy (decode_encode hg (stands_answer hg hbase hs' hx c)).2
  have hreceived := hg.table hx hs'
  have hswap : y • x • base = x • y • base := smul_comm y x base
  cases c with
  | false =>
    simp only [Bool.false_eq_true, if_false, add_zero, hswap] at hyr ⊢
    exact hg.encode_eq hyr hreceived
  | true =>
    have hsub := hg.sub hyr (hg.scale hy hs)
    simp only [if_true, smul_add, hswap, add_sub_cancel_right] at hsub ⊢
    exact hg.encode_eq hsub hreceived

/-- The answers of the receiver, for its choices and factors. -/
def answers (g : Group) (s : g.Element) (choices : List Bool) (xs : List Nat) : List g.Element :=
  (choices.zip xs).map fun p => answer g s p.1 p.2

variable (hl : LinkEnd.Joined i j l l')
include hl

/-- The receiver has the chosen block of every transfer. -/
theorem transferred_answers (hw : w.WellFormed) (hy : g.Factor y) {xs : List Nat}
    (hxs : xs.length = w.length) (hfactors : ∀ x ∈ xs, g.Factor x) :
    let s := g.multiple g.generator y
    Transferred w
      (xs.zipIdx.map fun p =>
        elementBlock l'.peer l'.me p.2 (g.encode (g.multiple (g.table (g.reread s)) p.1)))
      (((answers g (g.reread s) w.bits xs).map g.reread).zipIdx.map fun p =>
        blocksSent g l y (g.scale y s) p.1 p.2) where
  length_received := by simp [hxs]
  length_sent := by simp [answers, hw.length_bits, hxs]
  chosen k c p hc hp := by
    have hk : k < xs.length := by
      have hlt := (List.getElem?_eq_some_iff.mp hc).1
      rwa [hw.length_bits, ← hxs] at hlt
    have hx : xs[k]? = some xs[k] := getElem?_eq_getElem hk
    have hanswer : (w.bits.zip xs)[k]? = some (c, xs[k]) := getElem?_zip_eq_some.mpr ⟨hc, hx⟩
    simp only [answers, getElem?_map, getElem?_zipIdx, hanswer, hx, Option.map_some,
      Nat.zero_add, Option.some.injEq] at hp ⊢
    have hencode := encode_chosen hg (hfactors _ (getElem_mem hk)) hy c
    rw [← hp, ← hencode, ← hl.me, ← hl.peer]
    cases c with
    | false => rfl
    | true => rfl

/-- **One direction of a batch.**  What the receiver gets is what it chose of what the sender
gets. -/
theorem meets_send_receive (hw : w.WellFormed) (hword : w.length < 2 ^ 64) (x : σ) (y : τ)
    (t u : Tape) :
    Meets i j (Succeed fun sent received x' y' => Transferred w received sent ∧ x' = x ∧ y' = y)
      ((send g l w.length).start x) ((receive g l' w.bits).start y) [] [] t u := by
  obtain ⟨base, hbase⟩ := hg.generator
  have hcarries : ∀ {p : g.Element} {a : A}, Stands p a → (Wire.bytes 32).Carries (g.encode p) :=
    fun hp => Wire.carries_bytes (hg.length_encode hp)
  rw [send, receive, drawFactor]
  simp only [bind_assoc, pure_bind]
  have hfactor : g.Factor (g.factor (t.next 64)) := ⟨_, t.length_next 64, rfl⟩
  have hs := hbase _ hfactor
  have hs' := (decode_encode hg hs).2
  refine Meets.draw_left (Meets.send_recv hl (hcarries hs) ?_)
  rw [(decode_encode hg hs).1, Session.check_ok_bind, hw.length_bits]
  refine draw_factors_right w.length (fun xs u hxs hfactors => ?_) u
  generalize g.factor (t.next 64) = y' at hfactor hs hs' ⊢
  have hdone := transferred_answers hg hl hw hfactor hxs hfactors
  dsimp only at hdone
  generalize g.reread (g.multiple g.generator y') = s at hs' hdone ⊢
  have hsent : ((w.bits.zip xs).map fun p => g.encode (answer g s p.1 p.2))
      = (answers g s w.bits xs).map g.encode := by
    rw [answers, map_map]
    rfl
  have hlength : (answers g s w.bits xs).length = w.length := by
    simp [answers, hw.length_bits, hxs]
  -- every answer stands for something, so that it can be sent and read
  have hanswer : ∀ p ∈ answers g s w.bits xs, ∃ a, Stands p a := by
    intro p hp
    obtain ⟨q, hq, rfl⟩ := mem_map.mp hp
    exact ⟨_, stands_answer hg hbase hs' (hfactors _ (of_mem_zip hq).2) q.1⟩
  have hlist : (Wire.bytes 32).list.Carries ((answers g s w.bits xs).map g.encode) := by
    refine .list (fun bs hbs => ?_) (by rw [length_map, hlength]; exact hword)
    obtain ⟨p, hp, rfl⟩ := mem_map.mp hbs
    exact hcarries (hanswer p hp).choose_spec
  have hread : ((answers g s w.bits xs).map g.encode).mapM (decode g)
      = .ok ((answers g s w.bits xs).map g.reread) := by
    rw [mapM_map]
    exact mapM_eq_ok fun p hp => (decode_encode hg (hanswer p hp).choose_spec).1
  rw [hsent]
  refine Meets.recvList_send hl hlist (by rw [length_map, hlength]) ?_
  rw [hread, Session.check_ok_bind]
  exact .done ⟨_, _, x, y, rfl, rfl, hdone, rfl, rfl⟩

/-- One end sends and the other receives. -/
theorem meets_direction (ha : a.role.sends = true) (hb : b.role.receives = true)
    (hchoices : b.choices.WellFormed) (hcount : a.count = b.choices.length) (hword : a.count < 2 ^ 64) (t u : Tape) :
    Meets i j (Succeed fun _ _ a' b' => ∃ sent received, Transferred b.choices received sent ∧
        a' = { a with sent } ∧ b' = { b with received })
      ((direction g l true).start a) ((direction g l' false).start b) [] [] t u := by
  rw [start_direction_sending ha, start_direction_receiving hb, hcount]
  refine (meets_send_receive hg hl hchoices (hcount ▸ hword) a b t u).andThen ?_
  rintro sent received _ _ t u ⟨htransferred, rfl, rfl⟩
  exact .done ⟨_, _, _, _, rfl, rfl, sent, received, htransferred, rfl, rfl⟩

variable (ha : a.Fresh) (hb : b.Fresh) (hcount : a.count = b.count)
include ha hb hcount

/-- **One end only sends and the other only receives.**  The sender starts with sending; the
receiver may first look at the direction in which it has nothing to do. -/
theorem meets_turns_one_way (harole : a.role = .sender) (hbrole : b.role = .receiver) (first : Bool)
    (t u : Tape) :
    Meets i j (Succeed fun _ _ a' b' => Agree a' b' ∧ Kept a a' ∧ Kept b b')
      ((turns g l true).start a) ((turns g l' first).start b) [] [] t u := by
  have hsends : a.role.sends = true := harole ▸ rfl
  have hreceives : b.role.receives = true := hbrole ▸ rfl
  have hmeets := meets_direction hg hl hsends hreceives hb.choices hcount ha.word t u
  have hend : ∀ sent received, Transferred b.choices received sent →
      Agree { a with sent, executed := true } { b with received, executed := true } := by
    intro sent received htransferred
    refine ⟨rfl, rfl, ?_, ?_⟩
    · simpa [Delivered, hsends] using htransferred
    · simp [Delivered, hbrole, Role.sends, hb.sent, ha.received]
  have hidle : ∀ b' : Base, b'.role = .receiver →
      (direction g l' true).start b' = .done (.ok (), b') := by
    intro b' h
    exact start_direction_idle (by simp [h, Role.sends])
  have hidle' : ∀ a' : Base, a'.role = .sender →
      (direction g l false).start a' = .done (.ok (), a') := by
    intro a' h
    exact start_direction_idle (by simp [h, Role.receives])
  rw [turns, turns]
  cases first with
  | true =>
    rw [Session.start_bind_of_done (hidle b hbrole)]
    refine hmeets.andThen ?_
    rintro _ _ _ _ t u ⟨sent, received, htransferred, rfl, rfl⟩
    rw [Bool.not_true, Session.start_bind_of_done (hidle' { a with sent } harole)]
    exact .done ⟨_, _, _, _, rfl, rfl, hend sent received htransferred, ⟨rfl, rfl⟩, rfl, rfl⟩
  | false =>
    refine hmeets.andThen ?_
    rintro _ _ _ _ t u ⟨sent, received, htransferred, rfl, rfl⟩
    rw [Bool.not_true, Bool.not_false, Session.start_bind_of_done (hidle' { a with sent } harole),
      Session.start_bind_of_done (hidle { b with received } hbrole)]
    exact .done ⟨_, _, _, _, rfl, rfl, hend sent received htransferred, ⟨rfl, rfl⟩, rfl, rfl⟩

/-- **Both ends do both.**  One of them sends first. -/
theorem meets_turns_both (harole : a.role = .both) (hbrole : b.role = .both) (t u : Tape) :
    Meets i j (Succeed fun _ _ a' b' => Agree a' b' ∧ Kept a a' ∧ Kept b b')
      ((turns g l true).start a) ((turns g l' false).start b) [] [] t u := by
  have hasends : a.role.sends = true := harole ▸ rfl
  have hbsends : b.role.sends = true := hbrole ▸ rfl
  rw [turns, turns]
  refine (meets_direction hg hl hasends (hbrole ▸ rfl) hb.choices hcount ha.word t u).andThen ?_
  rintro _ _ _ _ t u ⟨sent, received, htransferred, rfl, rfl⟩
  refine (meets_direction (a := { b with received }) (b := { a with sent }) hg hl.symm hbsends
    (harole ▸ rfl) ha.choices hcount.symm hb.word u t).flip.andThen ?_
  rintro _ _ _ _ t u ⟨sent', received', htransferred', rfl, rfl⟩
  refine .done ⟨_, _, _, _, rfl, rfl, ⟨rfl, rfl, ?_, ?_⟩, ⟨rfl, rfl⟩, rfl, rfl⟩
  · simpa [Delivered, hasends] using htransferred
  · simpa [Delivered, hbsends] using htransferred'

/-- **All complementary roles.**  Either the roles or the indices of the two ends say which of
them sends first, and both see the same. -/
theorem meets_turns (hrole : b.role = a.role.opposite) (t u : Tape) :
    Meets i j (Succeed fun _ _ a' b' => Agree a' b' ∧ Kept a a' ∧ Kept b b')
      ((turns g l (decide (l.me < l.peer) || !a.role.receives)).start a)
      ((turns g l' (decide (l'.me < l'.peer) || !b.role.receives)).start b) [] [] t u := by
  have hswap : ∀ (_ _ : Unit) (a' b' : Base), (Agree b' a' ∧ Kept b b' ∧ Kept a a') →
      Agree a' b' ∧ Kept a a' ∧ Kept b b' := fun _ _ _ _ h => ⟨h.1.symm, h.2.2, h.2.1⟩
  cases harole : a.role with
  | sender =>
    have hbrole : b.role = .receiver := by rw [hrole, harole]; rfl
    simpa [Role.receives] using meets_turns_one_way hg hl ha hb hcount harole hbrole _ t u
  | receiver =>
    have hbrole : b.role = .sender := by rw [hrole, harole]; rfl
    have hflipped := meets_turns_one_way hg hl.symm hb ha hcount.symm hbrole harole
      (decide (l.me < l.peer) || !Role.receiver.receives) u t
    simpa [Role.receives, hbrole] using hflipped.flip.imp hswap
  | both =>
    have hbrole : b.role = .both := by rw [hrole, harole]; rfl
    by_cases hlt : l.me < l.peer
    · have hlt' : ¬ l'.me < l'.peer := by rw [← hl.me, ← hl.peer]; omega
      simpa [Role.receives, hbrole, hlt, hlt'] using
        meets_turns_both hg hl ha hb hcount harole hbrole t u
    · have hlt' : l'.me < l'.peer := by
        have hne := hl.distinct
        rw [← hl.me, ← hl.peer]
        omega
      have hflipped := meets_turns_both hg hl.symm hb ha hcount.symm hbrole harole u t
      simpa [Role.receives, hbrole, hlt, hlt'] using hflipped.flip.imp hswap

/-- **Base transfers, end to end.**  Two ends of complementary roles finish and agree. -/
theorem meets_execute (hrole : b.role = a.role.opposite) (regenerate regenerate' : Bool)
    (t u : Tape) :
    Meets i j (Succeed fun _ _ a' b' => Agree a' b' ∧
        (∃ c, Started regenerate a c ∧ Kept c a') ∧ ∃ c, Started regenerate' b c ∧ Kept c b')
      ((execute g l regenerate).start a) ((execute g l' regenerate').start b) [] [] t u := by
  refine execute_left ha (fun a₁ t ha₁ => ?_) t
  refine Meets.symm (execute_left hb (fun b₁ u hb₁ => ?_) u)
  have hcount₁ : a₁.count = b₁.count := by rw [ha₁.count, hb₁.count, hcount]
  have hrole₁ : b₁.role = a₁.role.opposite := by rw [ha₁.role, hb₁.role, hrole]
  refine (meets_turns hg hl ha₁.fresh hb₁.fresh hcount₁ hrole₁ t u).symm.mono ?_
  rintro _ _ _ _ ⟨_, _, a₂, b₂, rfl, rfl, hagree, hkept, hkept'⟩
  exact ⟨_, _, a₂, b₂, rfl, rfl, hagree, ⟨a₁, ha₁, hkept⟩, b₁, hb₁, hkept'⟩

end Lawful

/-- **Base transfers are right in every pair of roles.**  Over any group, whoever has the lower
index and whatever is drawn, two ends of complementary roles both finish.  In every direction that
is run, and in no other, the receiver has the block of each pair that its choice bit selects, and
the streams that come out are equal. -/
theorem execute_delivers (hg : g.Lawful Stands) (hl : LinkEnd.Joined 0 1 l l') (role : Role)
    {v w : BitString} (hv : v.WellFormed) (hw : w.WellFormed) (hlength : v.length = w.length)
    (hword : v.length < 2 ^ 64) (regenerate regenerate' : Bool) (c d : Coins) :
    ∃ a b net s s', (Network.ofCoins [c, d]).runPair .honest
        ((execute g l regenerate).start (ofChoices role v))
        ((execute g l' regenerate').start (ofChoices role.opposite w))
          = (some (.ok (), a), some (.ok (), b), net) ∧
      Completed role v regenerate a ∧ Completed role.opposite w regenerate' b ∧
      Delivered a b ∧ Delivered b a ∧
      a.seeds = .ok s ∧ b.seeds = .ok s' ∧
      s.sent.length = (if role.sends then v.length else 0) ∧
      s'.sent.length = (if role.receives then v.length else 0) ∧
      s'.received = chosenKeys s.sent b.choices.bits ∧
      s.received = chosenKeys s'.sent a.choices.bits := by
  have hmeets := meets_execute hg hl (fresh_ofChoices role hv hword)
    (fresh_ofChoices role.opposite hw (hlength ▸ hword)) hlength rfl regenerate regenerate'
    c.tape d.tape
  obtain ⟨_, _, _, _, net, ⟨_, _, a, b, rfl, rfl, hagree, ⟨a₁, hstarted, hkept⟩, b₁, hstarted', hkept'⟩,
    hrun⟩ := Network.runPair_honest hmeets
  have ha := hstarted.completed hkept
  have hb := hstarted'.completed hkept'
  refine ⟨a, b, net, _, _, hrun, ha, hb, hagree.delivered, hagree.delivered',
    if_pos hagree.executed, if_pos hagree.executed', ?_, ?_, ?_, ?_⟩
  · rw [length_map, hagree.delivered.length_sent, ha.role_eq, hb.count, hlength]
  · rw [length_map, hagree.delivered'.length_sent, hb.role_eq, ha.count, Role.sends_opposite]
  · rw [hagree.delivered.received_eq hb.choices]
    exact map_chosenKeys _ _
  · rw [hagree.delivered'.received_eq ha.choices]
    exact map_chosenKeys _ _

/-- Three transfers to the party with the lower index, which only receives. -/
theorem execute_delivers_to_lower :
    (1009 : Nat) ≤ 256 ^ 32 ∧ ∀ c d : Coins, ∃ a b net,
      (Network.ofCoins [c, d]).runPair .honest
        ((Base.execute (residues 1009) ⟨1, 0, 1⟩ false).start
          (.ofChoices .receiver (.ofBits [true, false, true])))
        ((Base.execute (residues 1009) ⟨0, 1, 0⟩ true).start
          (.ofChoices .sender (.ofBits [false, false, false])))
          = (some (.ok (), a), some (.ok (), b), net) ∧
      b.sent.length = 3 ∧ a.received = chosenKeys b.sent [true, false, true] ∧ a.sent = [] := by
  have hq : (1009 : Nat) ≤ 256 ^ 32 := by decide
  refine ⟨hq, fun c d => ?_⟩
  obtain ⟨a, b, net, _, _, hrun, ha, hb, hab, hba, -⟩ := Base.execute_delivers (lawful_residues hq)
    (LinkEnd.joined_mk Nat.zero_ne_one) .receiver (BitString.wellFormed_ofBits [true, false, true])
    (BitString.wellFormed_ofBits [false, false, false]) rfl (by decide) false true c d
  have hbits : (BitString.ofBits [true, false, true]).bits = [true, false, true] := by decide
  have hreceived := hba.received_eq ha.choices
  rw [ha.kept rfl, hbits] at hreceived
  refine ⟨a, b, net, hrun, ?_, hreceived, ?_⟩
  · rw [hba.length_sent, hb.role_eq, ha.count]
    rfl
  · refine length_eq_zero_iff.mp ?_
    rw [hab.length_sent, ha.role_eq]
    rfl

end Base

end Transfer

end Beaver
