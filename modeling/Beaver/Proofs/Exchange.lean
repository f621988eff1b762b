import Beaver.CoinToss
import Beaver.Proofs.Meeting
import Beaver.Proofs.WireRoundTrip

/-!
# Steps on one link

What one end of a link sends, the other receives.  The rules below take such a step at
both ends and leave what follows it: sending and receiving, exchanging values, and
tossing coins.  The lower index sends first in an exchange, so that never both ends
wait; this is where it matters that the two ends go by different indices.
-/

namespace Beaver

variable {σ τ α β γ δ : Type}

namespace Session

theorem start_draw_bind (n : Nat) (f : Bytes → Session σ α) (t : σ) :
    (draw n >>= f).start t = .draw n fun bs => (f bs).start t := rfl

end Session

namespace LinkEnd

/-- The two ends of a link between parties `i` and `j`. -/
structure Joined (i j : Nat) (l l' : LinkEnd) : Prop where
  address : l.address = j
  address' : l'.address = i
  me : l.me = l'.peer
  peer : l.peer = l'.me
  distinct : l.me ≠ l.peer

theorem Joined.symm {i j : Nat} {l l' : LinkEnd} (h : Joined i j l l') : Joined j i l' l :=
  ⟨h.address', h.address, h.peer.symm, h.me.symm, by rw [← h.peer, ← h.me]; exact Ne.symm h.distinct⟩

theorem joined_mk {i j me peer : Nat} (h : me ≠ peer) : Joined i j ⟨j, me, peer⟩ ⟨i, peer, me⟩ :=
  ⟨rfl, rfl, rfl, rfl, h⟩

theorem start_send_bind (l : LinkEnd) (w : Wire γ) (c : γ) (f : Unit → Session σ α) (t : σ) :
    (l.send w c >>= f).start t = .send l.address (w.encode c) ((f ()).start t) := rfl

/-- What a message makes of a step that waits for it. -/
def got (w : Wire γ) (phase : String) (f : γ → Session σ α) (t : σ) :
    Option Bytes → Protocol (Except Failure α × σ)
  | none => .done (.error (.error (.link phase .closed)), t)
  | some bs =>
    match w.read bs with
    | .ok c => (f c).start t
    | .error why => .done (.error (.error (.link phase (.malformed why))), t)

theorem start_recv_bind (l : LinkEnd) (phase : String) (w : Wire γ) (f : γ → Session σ α) (t : σ) :
    (l.recv phase w >>= f).start t = .recv [l.address] fun _ m => got w phase f t m := by
  rw [Session.start_bind, recv, Session.start_bind, Session.start_perform]
  simp only [Protocol.recvFrom, Protocol.recv_bind, Protocol.done_bind, Session.resume_ok]
  congr 1
  funext _ m
  cases m with
  | none => rfl
  | some bs =>
    simp only [got]
    cases w.read bs with
    | ok c => rfl
    | error why => rfl

theorem got_encode {w : Wire γ} {c : γ} (hw : w.Carries c) (phase : String) (f : γ → Session σ α)
    (t : σ) : got w phase f t (some (w.encode c)) = (f c).start t := by
  rw [got, hw.read_encode]

end LinkEnd

/-- Both steps succeed, with results and states as `R` says. -/
def Succeed (R : α → β → σ → τ → Prop) (p : Except Failure α × σ) (q : Except Failure β × τ)
    (_ _ : Tape) : Prop :=
  ∃ a b x y, p = (.ok a, x) ∧ q = (.ok b, y) ∧ R a b x y

namespace Meets

section Steps

variable {i j : Nat} {t u : Tape} {R : α → β → σ → τ → Prop}
variable {f : Session σ α} {g : Session τ β} {x : σ} {y : τ}
variable {p : Protocol (Except Failure α × σ)} {q : Protocol (Except Failure β × τ)} {σ' τ' : Type}

/-- More than is needed is known of the results. -/
theorem imp {R' : α → β → σ → τ → Prop} (h : Meets i j (Succeed R) p q [] [] t u)
    (himp : ∀ a b x y, R a b x y → R' a b x y) : Meets i j (Succeed R') p q [] [] t u :=
  h.mono fun _ _ _ _ ⟨a, b, x, y, hp, hq, hR⟩ => ⟨a, b, x, y, hp, hq, himp a b x y hR⟩

/-- The two ends can change places. -/
theorem flip (h : Meets i j (Succeed R) p q [] [] t u) :
    Meets j i (Succeed fun b a y x => R a b x y) q p [] [] u t :=
  h.symm.mono fun _ _ _ _ ⟨a, b, x, y, hp, hq, hR⟩ => ⟨b, a, y, x, hq, hp, hR⟩

/-- Steps that succeed, and what follows them. -/
theorem andThen {post : Except Failure γ × σ → Except Failure δ × τ → Tape → Tape → Prop}
    {f' : α → Session σ γ} {g' : β → Session τ δ}
    (h : Meets i j (Succeed R) (f.start x) (g.start y) [] [] t u)
    (h' : ∀ a b x y t u, R a b x y →
      Meets i j post ((f' a).start x) ((g' b).start y) [] [] t u) :
    Meets i j post ((f >>= f').start x) ((g >>= g').start y) [] [] t u := by
  rw [Session.start_bind, Session.start_bind]
  refine h.bind ?_
  rintro _ _ t u ⟨a, b, x, y, rfl, rfl, hR⟩
  exact h' a b x y t u hR

/-- Steps on parts of the states. -/
theorem zoom {R' : α → β → σ' → τ' → Prop} {part : σ' → σ} {put : σ → σ' → σ'} {part' : τ' → τ}
    {put' : τ → τ' → τ'} {x : σ'} {y : τ'}
    (h : Meets i j (Succeed R) (f.start (part x)) (g.start (part' y)) [] [] t u)
    (himp : ∀ a b p q, R a b p q → R' a b (put p x) (put' q y)) :
    Meets i j (Succeed R') ((f.zoom part put).start x) ((g.zoom part' put').start y) [] [] t u := by
  rw [Session.start_zoom, Session.start_zoom]
  refine h.bind ?_
  rintro _ _ t u ⟨a, b, p, q, rfl, rfl, hR⟩
  exact .done ⟨a, b, _, _, rfl, rfl, himp a b p q hR⟩

/-- Steps of objects that are used on afterwards. -/
theorem borrow (h : Meets i j (Succeed R) (f.start x) (g.start y) [] [] t u) (x' : σ') (y' : τ') :
    Meets i j (Succeed fun a b p q => R a.1 b.1 a.2 b.2 ∧ p = x' ∧ q = y')
      ((f.borrow x).start x') ((g.borrow y).start y') [] [] t u := by
  rw [Session.start_borrow, Session.start_borrow]
  refine h.bind ?_
  rintro _ _ t u ⟨a, b, x, y, rfl, rfl, hR⟩
  exact .done ⟨(a, x), (b, y), x', y', rfl, rfl, hR, rfl, rfl⟩

/-- Results that are passed on. -/
theorem map {R' : γ → δ → σ → τ → Prop} {f' : α → γ} {g' : β → δ}
    (h : Meets i j (Succeed R) (f.start x) (g.start y) [] [] t u)
    (himp : ∀ a b x y, R a b x y → R' (f' a) (g' b) x y) :
    Meets i j (Succeed R') ((f' <$> f).start x) ((g' <$> g).start y) [] [] t u := by
  rw [Session.start_map, Session.start_map]
  refine h.bind ?_
  rintro _ _ t u ⟨a, b, x, y, rfl, rfl, hR⟩
  exact .done ⟨_, _, x, y, rfl, rfl, himp a b x y hR⟩

end Steps

variable {i j : Nat} {l l' : LinkEnd} {s u : Tape} {t₁ : σ} {t₂ : τ}
variable {post : Except Failure α × σ → Except Failure β × τ → Tape → Tape → Prop}
variable {w : Wire γ} {phase : String} {f : Unit → Session σ α} {g : Unit → Session τ β}
variable {xs : List γ} {n : Nat}

section Links

variable (hl : LinkEnd.Joined i j l l')
include hl

/-- The left end sends a value and the right end receives it. -/
theorem send_recv {c : γ} (hw : w.Carries c) {g : γ → Session τ β}
    (h : Meets i j post ((f ()).start t₁) ((g c).start t₂) [] [] s u) :
    Meets i j post ((l.send w c >>= f).start t₁) ((l'.recv phase w >>= g).start t₂) [] [] s u := by
  rw [LinkEnd.start_send_bind, LinkEnd.start_recv_bind, hl.address, hl.address']
  refine .sendLeft (.recvRight ?_)
  rw [LinkEnd.got_encode hw]
  exact h

/-- The right end sends a value and the left end receives it. -/
theorem recv_send {c : γ} (hw : w.Carries c) {f : γ → Session σ α}
    (h : Meets i j post ((f c).start t₁) ((g ()).start t₂) [] [] s u) :
    Meets i j post ((l.recv phase w >>= f).start t₁) ((l'.send w c >>= g).start t₂) [] [] s u :=
  (send_recv hl.symm hw h.symm).symm

/-- The left end sends a list and the right end receives it. -/
theorem send_recvList (hw : w.list.Carries xs) (hn : xs.length = n)
    {g : List γ → Session τ β} (h : Meets i j post ((f ()).start t₁) ((g xs).start t₂) [] [] s u) :
    Meets i j post ((l.send w.list xs >>= f).start t₁) ((l'.recvList phase w n >>= g).start t₂)
      [] [] s u := by
  rw [LinkEnd.recvList, bind_assoc]
  refine send_recv hl hw ?_
  rw [if_pos hn, pure_bind]
  exact h

/-- The right end sends a list and the left end receives it. -/
theorem recvList_send (hw : w.list.Carries xs) (hn : xs.length = n)
    {f : List γ → Session σ α} (h : Meets i j post ((f xs).start t₁) ((g ()).start t₂) [] [] s u) :
    Meets i j post ((l.recvList phase w n >>= f).start t₁) ((l'.send w.list xs >>= g).start t₂)
      [] [] s u :=
  (send_recvList hl.symm hw hn h.symm).symm

/-- **The two ends exchange values.** -/
theorem exchange {c d : γ} (hc : w.Carries c) (hd : w.Carries d)
    {f : γ → Session σ α} {g : γ → Session τ β}
    (h : Meets i j post ((f d).start t₁) ((g c).start t₂) [] [] s u) :
    Meets i j post ((l.exchange phase w c >>= f).start t₁) ((l'.exchange phase w d >>= g).start t₂)
      [] [] s u := by
  rcases Nat.lt_or_gt_of_ne hl.distinct with hlt | hgt
  · have hgt : ¬ l'.me < l'.peer := by rw [← hl.me, ← hl.peer]; omega
    rw [LinkEnd.exchange, LinkEnd.exchange, if_pos hlt, if_neg hgt]
    simp only [bind_assoc, pure_bind]
    exact send_recv hl hc (recv_send hl hd h)
  · have hlt : l'.me < l'.peer := by rw [← hl.me, ← hl.peer]; omega
    have hgt : ¬ l.me < l.peer := by omega
    rw [LinkEnd.exchange, LinkEnd.exchange, if_neg hgt, if_pos hlt]
    simp only [bind_assoc, pure_bind]
    exact recv_send hl hd (send_recv hl hc h)

end Links

theorem draw_left {f : Bytes → Session σ α} {q : Protocol (Except Failure β × τ)}
    (h : Meets i j post ((f (s.next n)).start t₁) q [] [] s.tail u) :
    Meets i j post ((Session.draw n >>= f).start t₁) q [] [] s u := by
  rw [Session.start_draw_bind]
  exact .drawLeft h

theorem draw_right {p : Protocol (Except Failure α × σ)} {g : Bytes → Session τ β}
    (h : Meets i j post p ((g (u.next n)).start t₂) [] [] s u.tail) :
    Meets i j post p ((Session.draw n >>= g).start t₂) [] [] s u := by
  rw [Session.start_draw_bind]
  exact .drawRight h

end Meets

theorem Bytes.xor_comm (a b : Bytes) : Bytes.xor a b = Bytes.xor b a := by
  rw [Bytes.xor, Bytes.xor, List.zipWith_comm]
  congr 1
  funext x y
  exact UInt8.xor_comm y x

/-- **The two ends of a link toss the same coins.** -/
theorem Meets.pairwise {i j : Nat} {l l' : LinkEnd} {s u : Tape} {t₁ : σ} {t₂ : τ}
    {post : Except Failure α × σ → Except Failure β × τ → Tape → Tape → Prop}
    (hl : LinkEnd.Joined i j l l') {f : CoinStream → Session σ α} {g : CoinStream → Session τ β}
    (h : Meets i j post
      ((f (CoinStream.ofSeed (Bytes.xor (s.next 32) (u.next 32)))).start t₁)
      ((g (CoinStream.ofSeed (Bytes.xor (s.next 32) (u.next 32)))).start t₂)
      [] [] s.tail.tail u.tail.tail) :
    Meets i j post ((CoinToss.pairwise l >>= f).start t₁) ((CoinToss.pairwise l' >>= g).start t₂)
      [] [] s u := by
  rw [CoinToss.pairwise, CoinToss.pairwise]
  simp only [bind_assoc]
  apply draw_left
  apply draw_left
  apply draw_right
  apply draw_right
  have hcommit : ∀ value salt party, (Wire.bytes 32).Carries (CoinToss.commit value salt party) :=
    fun _ _ _ => Wire.carries_bytes (Digest.length_hash _)
  have hopen : ∀ v : Tape, ((Wire.bytes 32).pair (Wire.bytes 32)).Carries (v.next 32, v.tail.next 32) :=
    fun v => .pair (Wire.carries_bytes (v.length_next 32)) (Wire.carries_bytes (v.tail.length_next 32))
  refine exchange hl (hcommit _ _ _) (hcommit _ _ _) (exchange hl (hopen s) (hopen u) ?_)
  simp only [hl.me, hl.peer, if_true, pure_bind]
  rw [Bytes.xor_comm (u.next 32) (s.next 32)]
  exact h

end Beaver
