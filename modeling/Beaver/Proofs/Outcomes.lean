import Beaver.MacCheck
import Beaver.Proofs.Histories

/-!
# What always comes of a step

`Always S s t post inv` says of a step `s` from the state `t` that, whatever its peers do, `S` holds
of every message that it sends, `post` after a success and `inv` after a failure.  It is the weakest
such condition on `t`: every elementary step has a simp lemma that says what it comes to, and for
two steps in turn it is the condition of the first with that of the second inside (`always_bind`).

`Ends s t es r u` says that the step can go through the events `es` to the outcome `r`, with the
state `u` left.  What always comes of a step comes of it in the end (`Always.of_ends`).
-/

namespace Beaver

open List

variable {σ τ α β : Type}

theorem checkLength_ok {n k : Nat} (h : checkLength n k = .ok ()) : n = k := by
  by_contra hne
  rw [checkLength, if_neg hne] at h
  cases h

namespace Protocol

/-- Whatever its peers do, `S` holds of all messages of a program and `Q` of its result. -/
def Always (S : Bytes → Prop) (Q : α → Prop) : Protocol α → Prop
  | done a => Q a
  | send _ m next => S m ∧ next.Always S Q
  | recv _ next => ∀ i m, (next i m).Always S Q
  | draw n next => ∀ bs : Bytes, bs.length = n → (next bs).Always S Q
  | close _ next => next.Always S Q

variable {S : Bytes → Prop} {Q R : α → Prop} {p : Protocol α}

theorem always_bind {Q : β → Prop} {f : α → Protocol β} :
    (p.bind f).Always S Q ↔ p.Always S fun a => (f a).Always S Q := by
  induction p with
  | done a => rfl
  | send _ _ _ ih => exact and_congr_right fun _ => ih
  | recv _ _ ih => exact forall_congr' fun i => forall_congr' fun m => ih i m
  | draw _ _ ih => exact forall_congr' fun bs => forall_congr' fun _ => ih bs
  | close _ _ ih => exact ih

theorem Always.mono (h : p.Always S Q) (hQ : ∀ a, Q a → R a) : p.Always S R := by
  induction p with
  | done a => exact hQ a h
  | send _ _ _ ih => exact ⟨h.1, ih h.2⟩
  | recv _ _ ih => exact fun i m => ih i m (h i m)
  | draw _ _ ih => exact fun bs hbs => ih bs (h bs hbs)
  | close _ _ ih => exact ih h

/-- What always holds still does after some events, and held of the messages among them. -/
theorem Always.of_follows {es : List Event} {q : Protocol α} (hes : p.Follows es q)
    (h : p.Always S Q) : q.Always S Q ∧ ∀ peer m, Event.sent peer m ∈ es → S m := by
  induction hes with
  | nil => exact ⟨h, nofun⟩
  | cons hdoes _ ih =>
    cases hdoes with
    | send =>
      obtain ⟨hq, hsent⟩ := ih h.2
      refine ⟨hq, fun peer m hm => ?_⟩
      rcases mem_cons.mp hm with hm | hm
      · cases hm
        exact h.1
      · exact hsent peer m hm
    | recv i m =>
      obtain ⟨hq, hsent⟩ := ih (h i m)
      exact ⟨hq, fun peer m hm => hsent peer m ((mem_cons.mp hm).resolve_left nofun)⟩
    | draw hbs =>
      obtain ⟨hq, hsent⟩ := ih (h _ hbs)
      exact ⟨hq, fun peer m hm => hsent peer m ((mem_cons.mp hm).resolve_left nofun)⟩
    | close =>
      obtain ⟨hq, hsent⟩ := ih h
      exact ⟨hq, fun peer m hm => hsent peer m ((mem_cons.mp hm).resolve_left nofun)⟩

end Protocol

namespace Session

/-- `post` after a success, and `inv` after a failure. -/
def Ended (post : α → σ → Prop) (inv : Failure → σ → Prop) : Except Failure α × σ → Prop
  | (.ok a, t) => post a t
  | (.error e, t) => inv e t

/-- From the state `t` and whatever its peers do, a step sends only messages of which `S` holds.
After a success `post` holds, and after a failure `inv` does. -/
def Always (S : Bytes → Prop) (s : Session σ α) (t : σ) (post : α → σ → Prop)
    (inv : Failure → σ → Prop) : Prop :=
  (s.start t).Always S (Ended post inv)

/-- From the state `t` and through the events `es`, a step comes to the outcome `r` and the
state `u`. -/
def Ends (s : Session σ α) (t : σ) (es : List Event) (r : Except Failure α) (u : σ) : Prop :=
  (s.start t).Follows es (.done (r, u))

variable {S : Bytes → Prop} {s : Session σ α} {t : σ} {post post' : α → σ → Prop}
variable {inv inv' : Failure → σ → Prop}
variable {r : Except Failure α} {f : α → Session σ β} {xs : List β}

theorem Always.of_ends {es : List Event} {u : σ} (h : Always S s t post inv)
    (hends : Ends s t es r u) : Ended post inv (r, u) :=
  (Protocol.Always.of_follows hends h).1

theorem Always.mono (h : Always S s t post inv) (hpost : ∀ a u, post a u → post' a u)
    (hinv : ∀ e u, inv e u → inv' e u) : Always S s t post' inv' := by
  refine Protocol.Always.mono h fun r hr => ?_
  match r, hr with
  | (.ok a, u), hr => exact hpost a u hr
  | (.error e, u), hr => exact hinv e u hr

theorem always_next {f : Except Failure α × σ → Protocol β} {Q : β → Prop}
    (h : ∀ r, (f r).Always S Q = Ended post inv r) :
    ((s.start t).bind f).Always S Q ↔ Always S s t post inv := by
  rw [Protocol.always_bind, funext h]
  rfl

/-- **Steps follow each other.** -/
@[simp]
theorem always_bind {post : β → σ → Prop} :
    Always S (s >>= f) t post inv ↔ Always S s t (fun a u => Always S (f a) u post inv) inv := by
  rw [Always, start_bind]
  exact always_next fun r => by rcases r with ⟨_ | _, _⟩ <;> rfl

theorem Always.andThen {next : β → σ → Prop} (h : Always S s t post inv)
    (hf : ∀ a u, post a u → Always S (f a) u next inv) : Always S (s >>= f) t next inv :=
  always_bind.mpr (h.mono hf fun _ _ h => h)

@[simp]
theorem always_map {f : α → β} {post : β → σ → Prop} :
    Always S (f <$> s) t post inv ↔ Always S s t (fun a u => post (f a) u) inv := by
  rw [map_eq_pure_bind, always_bind]
  rfl

@[simp]
theorem always_pure {a : α} : Always S (pure a) t post inv ↔ post a t := Iff.rfl

@[simp]
theorem always_throw {e : Failure} : Always S (throw e : Session σ α) t post inv ↔ inv e t := Iff.rfl

@[simp]
theorem always_fail {e : Error} :
    Always S (fail e : Session σ α) t post inv ↔ inv (.error e) t := Iff.rfl

@[simp]
theorem always_get {post : σ → σ → Prop} : Always S get t post inv ↔ post t t := Iff.rfl

@[simp]
theorem always_modify {f : σ → σ} {post : PUnit → σ → Prop} :
    Always S (modify f) t post inv ↔ post ⟨⟩ (f t) := Iff.rfl

@[simp]
theorem always_check {r : Except Error α} : Always S (check r) t post inv ↔
    (∀ a, r = .ok a → post a t) ∧ ∀ e, r = .error e → inv (.error e) t := by
  cases r <;> simp [check]

@[simp]
theorem always_total {o : Option α} : Always S (total o) t post inv ↔
    (∀ a, o = some a → post a t) ∧ (o = none → inv .fault t) := by
  cases o <;> simp [total]

@[simp]
theorem always_draw {n : Nat} {post : Bytes → σ → Prop} :
    Always S (draw n) t post inv ↔ ∀ bs : Bytes, bs.length = n → post bs t := Iff.rfl

@[simp]
theorem always_ite {c : Prop} [Decidable c] {s' : Session σ α} :
    Always S (if c then s else s') t post inv ↔
      (c → Always S s t post inv) ∧ (¬c → Always S s' t post inv) := by
  split <;> simp [*]

/-- A step on a part of the state. -/
@[simp]
theorem always_zoom {part : τ → σ} {put : σ → τ → τ} {t : τ} {post : α → τ → Prop}
    {inv : Failure → τ → Prop} : Always S (s.zoom part put) t post inv ↔
      Always S s (part t) (fun a u => post a (put u t)) fun e u => inv e (put u t) := by
  rw [Always, start_zoom]
  exact always_next fun r => by rcases r with ⟨_ | _, _⟩ <;> rfl

/-- A step of an object that is used on afterwards. -/
@[simp]
theorem always_borrow {x : σ} {t : τ} {post : α × σ → τ → Prop} {inv : Failure → τ → Prop} :
    Always S (s.borrow x) t post inv ↔
      Always S s x (fun a u => post (a, u) t) fun e _ => inv e t := by
  rw [Always, start_borrow]
  exact always_next fun r => by rcases r with ⟨_ | _, _⟩ <;> rfl

/-- A step for each item; what holds of the state between the items is `I`. -/
theorem Always.mapM {I : σ → Prop} {f : β → Session σ α}
    (h : ∀ x ∈ xs, ∀ u, I u → Always S (f x) u (fun _ => I) inv) (ht : I t) :
    Always S (xs.mapM f) t (fun as u => as.length = xs.length ∧ I u) inv := by
  induction xs generalizing t with
  | nil => exact ⟨rfl, ht⟩
  | cons x xs ih =>
    rw [mapM_cons, always_bind]
    refine (h x mem_cons_self t ht).mono (fun a u hu => ?_) fun _ _ h => h
    simpa using ih (fun y hy => h y (mem_cons_of_mem x hy)) hu

/-- Checks on a list of items. -/
theorem always_forM_check {f : β → Except Error PUnit} {post : PUnit → σ → Prop}
    (hpost : (∀ x ∈ xs, f x = .ok ⟨⟩) → post ⟨⟩ t)
    (hinv : ∀ x e, f x = .error e → inv (.error e) t) :
    Always S (forM xs fun x => check (f x)) t post inv := by
  induction xs with
  | nil => exact hpost nofun
  | cons x xs ih =>
    rw [forM_cons, always_bind, always_check]
    exact ⟨fun _ hx => ih fun hxs => hpost (forall_mem_cons.mpr ⟨hx, hxs⟩), hinv x⟩

end Session

open Session (Always)

variable {S : Bytes → Prop} {t : σ} {inv : Failure → σ → Prop}

namespace LinkEnd

variable {post : α → σ → Prop} {l : LinkEnd} {phase : String} {w : Wire α} {a : α}

@[simp]
theorem always_send {post : Unit → σ → Prop} :
    Always S (l.send w a) t post inv ↔ S (w.encode a) ∧ post () t := Iff.rfl

/-- Anything can arrive that can be read, or nothing. -/
@[simp]
theorem always_recv : Always S (l.recv phase w) t post inv ↔
    (∀ a bs, w.read bs = .ok a → post a t) ∧ inv (.error (.link phase .closed)) t ∧
      ∀ why bs, w.read bs = .error why → inv (.error (.link phase (.malformed why))) t := by
  have hstart : (l.recv phase w).start t = .recv [l.address] fun _ m => got w phase pure t m := by
    rw [← start_recv_bind, bind_pure]
  rw [Always, hstart]
  constructor
  · intro h
    refine ⟨fun a bs hread => ?_, h ⟨0, Nat.zero_lt_one⟩ none, fun why bs hread => ?_⟩
    all_goals
      have hbs := h ⟨0, Nat.zero_lt_one⟩ (some bs)
      simp only [got, hread] at hbs
      exact hbs
  · rintro ⟨hpost, hclosed, hmalformed⟩ _ (_ | bs)
    · exact hclosed
    · simp only [got]
      split
      · exact hpost _ bs ‹_›
      · exact hmalformed _ bs ‹_›

end LinkEnd

variable {p : Player} {phase : String} {w : Wire α} {x : α}

/-- Each party is sent the value. -/
theorem Player.always_gather {post : List α → σ → Prop} (hx : S (w.encode x))
    (hpost : ∀ xs, xs.length = p.parties → post xs t)
    (hlink : ∀ fault, inv (.error (.link phase fault)) t) :
    Always S (p.gather phase w x) t post inv := by
  refine (Session.Always.mapM (I := (· = t)) (fun k _ u hu => ?_) rfl).mono ?_ fun _ _ h => h
  · simp [LinkEnd.exchange, hx, hu, hlink]
  · rintro xs _ ⟨hlength, rfl⟩
    exact hpost xs (hlength.trans length_range)

namespace CoinToss

variable {post : CoinStream → σ → Prop}

/-- **Tossing with another party** takes a digest, a seed and its salt. -/
theorem always_pairwise {l : LinkEnd} (hS : ∀ m : Bytes, m.length ≤ 64 → S m)
    (hpost : ∀ coins, post coins t) (hlink : ∀ phase fault, inv (.error (.link phase fault)) t)
    (hcheat : ∀ what, inv (.error (.cheat what)) t) : Always S (pairwise l) t post inv := by
  have hcommit : ∀ seed salt, S ((Wire.bytes 32).encode (commit seed salt l.me)) := fun _ _ =>
    hS _ ((Digest.length_hash _).le.trans (by omega))
  have hopen : ∀ seed salt : Bytes, seed.length = 32 → salt.length = 32 →
      S (((Wire.bytes 32).pair (Wire.bytes 32)).encode (seed, salt)) := by
    intro seed salt hseed hsalt
    have hlength : (seed ++ salt).length = 32 + 32 := by rw [length_append, hseed, hsalt]
    exact hS _ hlength.le
  simp +contextual [pairwise, LinkEnd.exchange, hcommit, hopen, hpost, hlink, hcheat]

/-- A toss of all parties. -/
theorem always_commitAndOpen {post : List α → σ → Prop} (hS : ∀ m, S m) (hpost : ∀ xs, post xs t)
    (hlink : ∀ phase fault, inv (.error (.link phase fault)) t)
    (hcheat : ∀ what, inv (.error (.cheat what)) t) :
    Always S (commitAndOpen p phase w x) t post inv := by
  simp [commitAndOpen, Player.broadcast, Player.always_gather, hS, hpost, hlink, hcheat]

theorem always_shared (hS : ∀ m, S m) (hpost : ∀ xs, post xs t)
    (hlink : ∀ phase fault, inv (.error (.link phase fault)) t)
    (hcheat : ∀ what, inv (.error (.cheat what)) t) : Always S (shared p) t post inv := by
  simp [shared, always_commitAndOpen, hS, hpost, hlink, hcheat]

section Ends

variable {u : σ} {es : List Event}

theorem ends_shared {coins : CoinStream} (h : Session.Ends (shared p) t es (.ok coins) u) : u = t :=
  have halways : Always (fun _ => True) (shared p) t (fun _ v => v = t) fun _ _ => True := by
    simp [always_shared]
  halways.of_ends h

end Ends

end CoinToss

namespace MacCheck

open ShareRing

variable {μ : Type} [ShareRing μ] {s : MacCheck μ}

/-- An opening adds to what is pending if it succeeds, and nothing otherwise. -/
theorem always_openShares {τ : Type} [ShareRing τ] [Lift τ μ] {shares : List (Share τ μ)} :
    Always (fun _ => True) (openShares p phase shares) s
      (fun values t => ∃ all : List (List τ), values = (opened all shares).map (·.1) ∧
        t = { s with pending := s.pending ++ (opened all shares).map (·.2) }) fun _ t => t = s := by
  simp only [openShares, Session.always_bind]
  refine Player.always_gather trivial (fun all _ => ?_) fun _ => rfl
  exact Session.always_forM_check (fun _ => ⟨all, rfl, rfl⟩) fun _ _ _ => rfl

/-- **However a check ends, nothing is pending after it.** -/
theorem always_check : Always (fun _ => True) (check p) s
    (fun _ t => t = { s with pending := [] }) fun _ t => t = { s with pending := [] } := by
  simp [check, CoinToss.always_shared, CoinToss.always_commitAndOpen]

end MacCheck

end Beaver
