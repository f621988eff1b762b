import Beaver.Proofs.Exchange

/-!
# What one party can tell of a run

Whatever its peers do, a party sees a run as a list of events: what it has sent, what it
got or that a link was closed, and what it has drawn.  `Follows p es q` says that a
program can go through these events, with the program `q` left.

`Traces p mid post` says that `mid` holds of the events at any time, and `post` of the
result and the events in the end, against any behaviour of the peers.  Such statements
follow each other like the programs do (`Session.Traces.andThen`).
-/

namespace Beaver

variable {α β σ : Type}

/-- What happens to a party. -/
inductive Event where
  | sent (peer : Nat) (m : Bytes)
  /-- A message, or nothing if the link is closed. -/
  | got (peer : Nat) (m : Option Bytes)
  | drew (bs : Bytes)
  | closed (peer : Nat)
  deriving DecidableEq

namespace Event

/-- The message that is sent to a party. -/
def sentTo? (k : Nat) : Event → Option Bytes
  | sent peer m => if peer = k then some m else none
  | _ => none

/-- The message that is got from a party. -/
def gotFrom? (k : Nat) : Event → Option Bytes
  | got peer m => if peer = k then m else none
  | _ => none

end Event

/-- All messages sent to party `k`, the oldest first. -/
def sentTo (k : Nat) (es : List Event) : List Bytes :=
  es.filterMap (Event.sentTo? k)

/-- All messages got from party `k`, the oldest first. -/
def gotFrom (k : Nat) (es : List Event) : List Bytes :=
  es.filterMap (Event.gotFrom? k)

@[simp]
theorem sentTo_nil (k : Nat) : sentTo k [] = [] := rfl

@[simp]
theorem gotFrom_nil (k : Nat) : gotFrom k [] = [] := rfl

@[simp]
theorem sentTo_append (k : Nat) (es es' : List Event) :
    sentTo k (es ++ es') = sentTo k es ++ sentTo k es' :=
  List.filterMap_append

@[simp]
theorem gotFrom_append (k : Nat) (es es' : List Event) :
    gotFrom k (es ++ es') = gotFrom k es ++ gotFrom k es' :=
  List.filterMap_append

section Cons

variable (k peer : Nat) (m : Bytes) (es : List Event)

@[simp]
theorem sentTo_sent :
    sentTo k (.sent peer m :: es) = if peer = k then m :: sentTo k es else sentTo k es := by
  by_cases h : peer = k
  · simp [sentTo, Event.sentTo?, h]
  · simp [sentTo, Event.sentTo?, h]

@[simp]
theorem sentTo_got (o : Option Bytes) : sentTo k (.got peer o :: es) = sentTo k es := rfl

@[simp]
theorem sentTo_drew (bs : Bytes) : sentTo k (.drew bs :: es) = sentTo k es := rfl

@[simp]
theorem sentTo_closed : sentTo k (.closed peer :: es) = sentTo k es := rfl

@[simp]
theorem gotFrom_got : gotFrom k (.got peer (some m) :: es)
    = if peer = k then m :: gotFrom k es else gotFrom k es := by
  by_cases h : peer = k
  · simp [gotFrom, Event.gotFrom?, h]
  · simp [gotFrom, Event.gotFrom?, h]

@[simp]
theorem gotFrom_gone : gotFrom k (.got peer none :: es) = gotFrom k es := by
  simp [gotFrom, Event.gotFrom?]

@[simp]
theorem gotFrom_sent : gotFrom k (.sent peer m :: es) = gotFrom k es := rfl

@[simp]
theorem gotFrom_drew (bs : Bytes) : gotFrom k (.drew bs :: es) = gotFrom k es := rfl

@[simp]
theorem gotFrom_closed : gotFrom k (.closed peer :: es) = gotFrom k es := rfl

end Cons

namespace Protocol

/-- A program makes one step. -/
inductive Does : Protocol α → Event → Protocol α → Prop
  | send {peer m next} : Does (.send peer m next) (.sent peer m) next
  | recv {peers next} (i : Fin peers.length) (m : Option Bytes) :
      Does (.recv peers next) (.got (peers.get i) m) (next i m)
  | draw {n next bs} (h : bs.length = n) : Does (.draw n next) (.drew bs) (next bs)
  | close {peer next} : Does (.close peer next) (.closed peer) next

/-- A program goes through events. -/
inductive Follows : Protocol α → List Event → Protocol α → Prop
  | nil {p} : Follows p [] p
  | cons {p e q es r} (h : Does p e q) (hs : Follows q es r) : Follows p (e :: es) r

/-- What a program makes of an event, if it allows for it. -/
def after? : Protocol α → Event → Option (Protocol α)
  | .send peer m next, .sent peer' m' => if peer = peer' ∧ m = m' then some next else none
  | .recv peers next, .got peer m =>
    ((List.finRange peers.length).find? fun i => peers.get i = peer).map (next · m)
  | .draw n next, .drew bs => if bs.length = n then some (next bs) else none
  | .close peer next, .closed peer' => if peer = peer' then some next else none
  | _, _ => none

theorem does_of_after? {p q : Protocol α} {e : Event} (h : p.after? e = some q) : Does p e q := by
  unfold after? at h
  split at h
  · rw [Option.ite_none_right_eq_some, Option.some.injEq] at h
    obtain ⟨⟨rfl, rfl⟩, rfl⟩ := h
    exact .send
  · obtain ⟨i, hi, rfl⟩ := Option.map_eq_some_iff.mp h
    have hpeer := List.find?_some hi
    rw [← of_decide_eq_true hpeer]
    exact .recv i _
  · rw [Option.ite_none_right_eq_some, Option.some.injEq] at h
    obtain ⟨hlength, rfl⟩ := h
    exact .draw hlength
  · rw [Option.ite_none_right_eq_some, Option.some.injEq] at h
    obtain ⟨rfl, rfl⟩ := h
    exact .close
  · cases h

theorem eq_done_of_result? {p : Protocol α} {a : α} (h : p.result? = some a) : p = .done a := by
  cases p with
  | done b => rw [Option.some.inj h]
  | send _ _ _ | recv _ _ | draw _ _ | close _ _ => cases h

/-- A step of two programs in turn is a step of the first, unless that one is done. -/
theorem Does.of_bind {f : α → Protocol β} {p : Protocol α} {e : Event} {q : Protocol β}
    (h : Does (p.bind f) e q) : (∃ a, p = .done a) ∨ ∃ p', Does p e p' ∧ q = p'.bind f := by
  cases p with
  | done a => exact .inl ⟨a, rfl⟩
  | send peer m next => cases h; exact .inr ⟨next, .send, rfl⟩
  | recv peers next =>
    cases h with
    | recv i m => exact .inr ⟨next i m, .recv i m, rfl⟩
  | draw n next =>
    cases h with
    | draw hlength => exact .inr ⟨_, .draw hlength, rfl⟩
  | close peer next => cases h; exact .inr ⟨next, .close, rfl⟩

namespace Follows

variable {p q r : Protocol α} {es es' : List Event}

theorem append (h : Follows p es q) (h' : Follows q es' r) : Follows p (es ++ es') r := by
  induction h with
  | nil => exact h'
  | cons hdoes _ ih => exact .cons hdoes (ih h')

theorem snoc {e : Event} (h : Follows p es q) (h' : Does q e r) : Follows p (es ++ [e]) r :=
  h.append (.cons h' .nil)

/-- A program that is done has no steps. -/
theorem of_done {a : α} (h : Follows (.done a) es q) : es = [] ∧ q = .done a := by
  cases h with
  | nil => exact ⟨rfl, rfl⟩
  | cons hdoes _ => cases hdoes

/-- **The events of two programs in turn.**  They are events of the first, or the first
is done and events of the second follow. -/
theorem of_bind {f : α → Protocol β} {p : Protocol α} {q : Protocol β}
    (h : Follows (p.bind f) es q) :
    (∃ p', Follows p es p' ∧ q = p'.bind f) ∨
      ∃ es₁ es₂ a, es = es₁ ++ es₂ ∧ Follows p es₁ (.done a) ∧ Follows (f a) es₂ q := by
  induction es generalizing p with
  | nil =>
    cases h with
    | nil => exact Or.inl ⟨p, .nil, rfl⟩
  | cons e es ih =>
    cases h with
    | cons hdoes hs =>
      rcases hdoes.of_bind with ⟨a, rfl⟩ | ⟨p', hp', rfl⟩
      · exact Or.inr ⟨[], e :: es, a, rfl, .nil, .cons hdoes hs⟩
      · rcases ih hs with ⟨p'', hp'', rfl⟩ | ⟨es₁, es₂, a, rfl, hfirst, hsecond⟩
        · exact Or.inl ⟨p'', .cons hp' hp'', rfl⟩
        · exact Or.inr ⟨_, es₂, a, rfl, .cons hp' hfirst, hsecond⟩

end Follows

/-- At any time `mid` holds of the events so far, and in the end `post` holds of the
result and all events. -/
def Traces (p : Protocol α) (mid : List Event → Prop) (post : α → List Event → Prop) : Prop :=
  ∀ es q, Follows p es q → mid es ∧ ∀ a, q = .done a → post a es

namespace Traces

variable {mid mid' : List Event → Prop} {post : α → List Event → Prop}
variable {p : Protocol α}

theorem done {a : α} (hmid : mid []) (hpost : post a []) : Traces (.done a) mid post := by
  intro es q hfollows
  obtain ⟨rfl, rfl⟩ := hfollows.of_done
  refine ⟨hmid, fun b hb => ?_⟩
  cases hb
  exact hpost

/-- What holds after every first step holds of a program that is not done. -/
theorem step (hmid : mid []) (hp : ∀ a, p ≠ .done a)
    (h : ∀ e q, Does p e q → Traces q (fun es => mid (e :: es)) fun a es => post a (e :: es)) :
    Traces p mid post := by
  intro es q hfollows
  cases hfollows with
  | nil => exact ⟨hmid, fun a ha => absurd ha (hp a)⟩
  | cons hdoes hs => exact h _ _ hdoes _ q hs

theorem send {peer : Nat} {m : Bytes} {next : Protocol α} (hmid : mid [])
    (h : Traces next (fun es => mid (.sent peer m :: es)) fun a es => post a (.sent peer m :: es)) :
    Traces (.send peer m next) mid post := by
  refine step hmid nofun fun e q hdoes => ?_
  cases hdoes
  exact h

theorem recv {peers : List Nat} {next : Fin peers.length → Option Bytes → Protocol α}
    (hmid : mid []) (h : ∀ i m, Traces (next i m) (fun es => mid (.got (peers.get i) m :: es))
      fun a es => post a (.got (peers.get i) m :: es)) :
    Traces (.recv peers next) mid post := by
  refine step hmid nofun fun e q hdoes => ?_
  cases hdoes with
  | recv i m => exact h i m

theorem draw {n : Nat} {next : Bytes → Protocol α} (hmid : mid [])
    (h : ∀ bs : Bytes, bs.length = n →
      Traces (next bs) (fun es => mid (.drew bs :: es)) fun a es => post a (.drew bs :: es)) :
    Traces (.draw n next) mid post := by
  refine step hmid nofun fun e q hdoes => ?_
  cases hdoes with
  | draw hlength => exact h _ hlength

/-- **One program after the other.** -/
theorem bind {f : α → Protocol β} {post' : β → List Event → Prop} (h : Traces p mid post)
    (hmid : ∀ es, mid es → mid' es)
    (h' : ∀ a es, mid es → post a es →
      Traces (f a) (fun es' => mid' (es ++ es')) fun b es' => post' b (es ++ es')) :
    Traces (p.bind f) mid' post' := by
  intro es q hfollows
  rcases hfollows.of_bind with ⟨p', hp', rfl⟩ | ⟨es₁, es₂, a, rfl, hfirst, hsecond⟩
  · obtain ⟨hthen, hend⟩ := h es p' hp'
    refine ⟨hmid es hthen, fun b hb => ?_⟩
    -- the first program is done, and what follows it is done at once
    cases p' with
    | done a =>
      have hrest := (h' a es hthen (hend a rfl) [] (f a) .nil).2 b hb
      simpa only [List.append_nil] using hrest
    | send _ _ _ | recv _ _ | draw _ _ | close _ _ => cases hb
  · obtain ⟨hthen, hend⟩ := h es₁ _ hfirst
    exact h' a es₁ hthen (hend a rfl) es₂ q hsecond

end Traces

end Protocol

namespace Session

/-- `mid` holds of the events at any time, and `post` of the outcome and the events in
the end, whatever the state is. -/
def Traces (s : Session σ α) (mid : List Event → Prop)
    (post : Except Failure α → List Event → Prop) : Prop :=
  ∀ t, (s.start t).Traces mid fun r es => post r.1 es

namespace Traces

variable {mid mid' : List Event → Prop} {post : Except Failure α → List Event → Prop}
variable {s : Session σ α}

theorem pure {a : α} (hmid : mid []) (hpost : post (.ok a) []) :
    (Pure.pure a : Session σ α).Traces mid post :=
  fun _ => .done hmid hpost

theorem fail {e : Error} (hmid : mid []) (hpost : post (.error (.error e)) []) :
    (Session.fail e : Session σ α).Traces mid post :=
  fun _ => .done hmid hpost

/-- **One step after the other.**  After a failure nothing follows. -/
theorem andThen {f : α → Session σ β} {post' : Except Failure β → List Event → Prop}
    (h : s.Traces mid post) (hmid : ∀ es, mid es → mid' es)
    (hok : ∀ a es, mid es → post (.ok a) es →
      (f a).Traces (fun es' => mid' (es ++ es')) fun r es' => post' r (es ++ es'))
    (herror : ∀ e es, post (.error e) es → post' (.error e) es) : (s >>= f).Traces mid' post' := by
  intro t
  rw [start_bind]
  refine (h t).bind hmid ?_
  intro r es hthen hend
  obtain ⟨r, t'⟩ := r
  cases r with
  | ok a => exact hok a es hthen hend t'
  | error e =>
    refine .done ?_ ?_
    · simpa only [List.append_nil] using hmid es hthen
    · simpa only [List.append_nil] using herror e es hend

theorem draw {n : Nat} {f : Bytes → Session σ α} (hmid : mid [])
    (h : ∀ bs : Bytes, bs.length = n →
      (f bs).Traces (fun es => mid (.drew bs :: es)) fun r es => post r (.drew bs :: es)) :
    (Session.draw n >>= f).Traces mid post := by
  intro t
  rw [start_draw_bind]
  exact .draw hmid fun bs hbs => h bs hbs t

end Traces

end Session

namespace LinkEnd

variable {γ : Type} {l : LinkEnd} {w : Wire γ} {mid : List Event → Prop}
variable {post : Except Failure α → List Event → Prop}

theorem traces_send {c : γ} {f : Unit → Session σ α} (hmid : mid [])
    (h : (f ()).Traces (fun es => mid (.sent l.address (w.encode c) :: es))
      fun r es => post r (.sent l.address (w.encode c) :: es)) :
    (l.send w c >>= f).Traces mid post := by
  intro t
  rw [start_send_bind]
  exact .send hmid (h t)

/-- A value is received, or the link is closed, or the message cannot be read. -/
theorem traces_recv {phase : String} {f : γ → Session σ α} (hmid : mid [])
    (hgot : ∀ m, mid [.got l.address m])
    (h : ∀ m c, w.read m = .ok c →
      (f c).Traces (fun es => mid (.got l.address (some m) :: es))
        fun r es => post r (.got l.address (some m) :: es))
    (hclosed : post (.error (.error (.link phase .closed))) [.got l.address none])
    (hmalformed : ∀ m why, w.read m = .error why →
      post (.error (.error (.link phase (.malformed why)))) [.got l.address (some m)]) :
    (l.recv phase w >>= f).Traces mid post := by
  intro t
  rw [start_recv_bind]
  refine .recv hmid fun i m => ?_
  have hpeer : [l.address].get i = l.address := by simp
  rw [hpeer]
  cases m with
  | none => exact .done (hgot none) hclosed
  | some bs =>
    cases hread : w.read bs with
    | ok c =>
      simp only [got, hread]
      exact h bs c hread t
    | error why =>
      simp only [got, hread]
      exact .done (hgot (some bs)) (hmalformed bs why hread)

/-- The events of an exchange with party `k`, of value `c` for value `y`. -/
structure Exchanged (w : Wire γ) (k : Nat) (c y : γ) (es : List Event) : Prop where
  sent : sentTo k es = [w.encode c]
  got : ∃ m, gotFrom k es = [m] ∧ w.read m = .ok y
  others : ∀ k', k' ≠ k → sentTo k' es = [] ∧ gotFrom k' es = []

/-- **An exchange** sends its value once and to nobody else, and if it succeeds, it has
read one message. -/
theorem traces_exchange (l : LinkEnd) (phase : String) (w : Wire γ) (c : γ) :
    (l.exchange phase w c : Session σ γ).Traces
      (fun es => sentTo l.address es <+: [w.encode c] ∧ ∀ k, k ≠ l.address → sentTo k es = [])
      fun r es => ∀ y, r = .ok y → Exchanged w l.address c y es := by
  rw [exchange]
  split
  · -- the value is on its way before anything is received
    have hone : sentTo l.address [.sent l.address (w.encode c)] <+: [w.encode c] ∧
        ∀ k, k ≠ l.address → sentTo k [.sent l.address (w.encode c)] = [] := by
      refine ⟨by simp, fun k hk => ?_⟩
      simp [Ne.symm hk]
    refine traces_send (by simp) ?_
    rw [← bind_pure (l.recv phase w)]
    refine traces_recv hone (fun m => by simpa using hone) ?_ (by simp) (by simp)
    intro m y hread
    refine .pure (by simpa using hone) ?_
    intro y' hy'
    cases hy'
    refine ⟨by simp, ⟨m, by simp, hread⟩, fun k hk => ?_⟩
    simp [Ne.symm hk]
  · refine traces_recv (by simp) (by simp) ?_ (by simp) (by simp)
    intro m y hread
    refine traces_send (by simp) (.pure ?_ ?_)
    · refine ⟨by simp, fun k hk => ?_⟩
      simp [Ne.symm hk]
    · intro y' hy'
      cases hy'
      refine ⟨by simp, ⟨m, by simp, hread⟩, fun k hk => ?_⟩
      simp [Ne.symm hk]

end LinkEnd

end Beaver
