import Mathlib.Data.List.Forall2
import Beaver.Proofs.Outcomes

/-!
# Programs with guards

The definitions of this library are total: where an index is past the end they take a
default or the common front of two lists, and they count without bound.  A machine has
words of a fixed width and no answer to such an index.  A *guarded* step looks at every
index and every word, and ends in a fault where one does not fit.

`Guards s g p post inv` says that the guarded step `g` does from the state `s` just what
the step `p` does, whatever arrives on the links, that no path ends in a fault, and that
`post` holds after a success and `inv` after an error.  Such statements follow each other
like the steps do (`Guards.andThen`).
-/

namespace Beaver

variable {σ τ α β : Type}

namespace Protocol

/-- What a link can deliver: a message that memory has room for, or nothing. -/
def Delivered (m : Option Bytes) : Prop :=
  ∀ bs ∈ m, bs.length < memoryLimit

/-- Two programs send the same messages, wait for the same peers and come to the same
result, of which `Q` holds, whatever they get and draw on the way. -/
inductive Alike (Q : α → Prop) : Protocol α → Protocol α → Prop where
  | done {a : α} (h : Q a) : Alike Q (.done a) (.done a)
  | send {peer : Nat} {message : Bytes} {p q : Protocol α} (h : Alike Q p q) :
      Alike Q (.send peer message p) (.send peer message q)
  | recv {peers : List Nat} {f g : Fin peers.length → Option Bytes → Protocol α}
      (h : ∀ i m, Delivered m → Alike Q (f i m) (g i m)) : Alike Q (.recv peers f) (.recv peers g)
  | draw {n : Nat} {f g : Bytes → Protocol α} (h : ∀ bs, bs.length = n → Alike Q (f bs) (g bs)) :
      Alike Q (.draw n f) (.draw n g)
  | close {peer : Nat} {p q : Protocol α} (h : Alike Q p q) :
      Alike Q (.close peer p) (.close peer q)

namespace Alike

variable {Q R : α → Prop} {p q : Protocol α}

theorem mono (h : Alike Q p q) (himp : ∀ a, Q a → R a) : Alike R p q := by
  induction h with
  | done ha => exact .done (himp _ ha)
  | send _ ih => exact .send ih
  | recv _ ih => exact .recv ih
  | draw _ ih => exact .draw ih
  | close _ ih => exact .close ih

/-- Programs that are alike can go on alike. -/
theorem bind {S : β → Prop} {f g : α → Protocol β} (h : Alike Q p q)
    (hnext : ∀ a, Q a → Alike S (f a) (g a)) : Alike S (p.bind f) (q.bind g) := by
  induction h with
  | done ha => exact hnext _ ha
  | send _ ih => exact .send ih
  | recv _ ih => exact .recv ih
  | draw _ ih => exact .draw ih
  | close _ ih => exact .close ih

/-- A program is like itself. -/
theorem of_always {S : Bytes → Prop} (h : p.Always S Q) : Alike Q p p := by
  induction p with
  | done a => exact .done h
  | send _ _ _ ih => exact .send (ih h.2)
  | recv _ _ ih => exact .recv fun i m _ => ih i m (h i m)
  | draw _ _ ih => exact .draw fun bs hbs => ih bs (h bs hbs)
  | close _ _ ih => exact .close (ih h)

end Alike

end Protocol

namespace Session

/-- Checks one after the other are a check of all. -/
theorem mapM_check (f : α → Except Error β) (xs : List α) :
    xs.mapM (fun x => (check (f x) : Session σ β)) = check (xs.mapM f) := by
  induction xs with
  | nil => rfl
  | cons x xs ih =>
    rw [List.mapM_cons, List.mapM_cons, ih]
    cases f x with
    | error e => rfl
    | ok y =>
      cases xs.mapM f with
      | error e => rfl
      | ok ys => rfl

/-- What a step may come to: a result or an error, but never a fault. -/
def Settled (post : α → σ → Prop) (inv : σ → Prop) : Except Failure α × σ → Prop
  | (.ok a, t) => post a t
  | (.error (.error _), t) => inv t
  | (.error .fault, _) => False

/-- From the state `s` the guarded step does what the plain one does, and neither faults.
After a success `post` holds, and after an error `inv` does. -/
def Guards (s : σ) (guarded plain : Session σ α) (post : α → σ → Prop) (inv : σ → Prop) : Prop :=
  Protocol.Alike (Settled post inv) (guarded.start s) (plain.start s)

/-- The guarded step does what the plain one does, neither faults, and `I` holds after it, however
it ends. -/
abbrev Leaves (s : σ) (guarded plain : Session σ α) (I : σ → Prop) : Prop :=
  Guards s guarded plain (fun _ => I) I

namespace Guards

variable {s : σ} {g p : Session σ α} {post post' : α → σ → Prop} {inv inv' : σ → Prop}

theorem mono (h : Guards s g p post inv) (hpost : ∀ a t, post a t → post' a t)
    (hinv : ∀ t, inv t → inv' t) : Guards s g p post' inv' := by
  refine Protocol.Alike.mono h fun r hr => ?_
  match r, hr with
  | (.ok a, t), hr => exact hpost a t hr
  | (.error (.error _), t), hr => exact hinv t hr

/-- A step without guards. -/
theorem of_always (h : Always (fun _ => True) p s post fun e t => e ≠ .fault ∧ inv t) :
    Guards s p p post inv := by
  refine Protocol.Alike.mono (.of_always h) fun r hr => ?_
  match r, hr with
  | (.ok _, _), hr => exact hr
  | (.error (.error _), _), hr => exact hr.2
  | (.error .fault, _), hr => exact hr.1 rfl

variable {mid : β → σ → Prop} {g₁ p₁ : Session σ β} {g₂ p₂ : β → Session σ α} {o : Option β}
variable {f : σ → σ} {xs : List β}

/-- **Guarded steps follow each other.** -/
theorem andThen (h : Guards s g₁ p₁ mid inv)
    (hnext : ∀ b t, mid b t → Guards t (g₂ b) (p₂ b) post inv) :
    Guards s (g₁ >>= g₂) (p₁ >>= p₂) post inv := by
  rw [Guards, start_bind, start_bind]
  refine Protocol.Alike.bind h fun r hr => ?_
  match r, hr with
  | (.ok b, t), hr => exact hnext b t hr
  | (.error (.error e), t), hr => exact .done hr

/-- What has to hold after the first step is what the second needs. -/
theorem bind (h : Guards s g₁ p₁ (fun b t => Guards t (g₂ b) (p₂ b) post inv) inv) :
    Guards s (g₁ >>= g₂) (p₁ >>= p₂) post inv :=
  h.andThen fun _ _ h => h

theorem map {f : β → α} (h : Guards s g₁ p₁ mid inv) (hpost : ∀ b t, mid b t → post (f b) t) :
    Guards s (f <$> g₁) (f <$> p₁) post inv := by
  rw [map_eq_pure_bind, map_eq_pure_bind]
  exact h.andThen fun b t hb => .done (hpost b t hb)

/-- A guard that lets a value through is no step of the plain program. -/
theorem guard {b : β} (ho : o = some b) (h : Guards s (g₂ b) p post inv) :
    Guards s (total o >>= g₂) p post inv := by
  rw [ho]
  exact h

theorem totalThen {b : β} (ho : o = some b) (h : Guards s (g₂ b) (p₂ b) post inv) :
    Guards s (total o >>= g₂) (total o >>= p₂) post inv := by
  rw [ho]
  exact h

theorem getThen {g₂ p₂ : σ → Session σ α} (h : Guards s (g₂ s) (p₂ s) post inv) :
    Guards s (get >>= g₂) (get >>= p₂) post inv :=
  h

theorem modifyThen {g₂ p₂ : PUnit → Session σ α} (h : Guards (f s) (g₂ ⟨⟩) (p₂ ⟨⟩) post inv) :
    Guards s (modify f >>= g₂) (modify f >>= p₂) post inv :=
  h

theorem pure {a : α} (h : post a s) : Guards s (Pure.pure a) (Pure.pure a) post inv :=
  .done h

theorem modify {post : PUnit → σ → Prop} (h : post ⟨⟩ (f s)) :
    Guards s (modify f) (modify f) post inv :=
  .done h

theorem fail {e : Error} (h : inv s) : Guards s (fail e) (fail e) post inv :=
  .done h

theorem check {e : Except Error α} (hok : ∀ a, e = .ok a → post a s) (herror : inv s) :
    Guards s (check e) (check e) post inv := by
  cases e with
  | ok a => exact .done (hok a rfl)
  | error e => exact .done herror

theorem draw {n : Nat} {post : Bytes → σ → Prop} (h : ∀ bs, bs.length = n → post bs s) :
    Guards s (Session.draw n) (Session.draw n) post inv :=
  Protocol.Alike.draw fun bs hbs => .done (h bs hbs)

theorem ite {c : Prop} [Decidable c] {g₁ g₂ p₁ p₂ : Session σ α}
    (h₁ : c → Guards s g₁ p₁ post inv) (h₂ : ¬c → Guards s g₂ p₂ post inv) :
    Guards s (if c then g₁ else g₂) (if c then p₁ else p₂) post inv := by
  by_cases hc : c
  · rw [if_pos hc, if_pos hc]
    exact h₁ hc
  · rw [if_neg hc, if_neg hc]
    exact h₂ hc

/-- A step on a part of the state. -/
theorem zoom {part : τ → σ} {put : σ → τ → τ} {t : τ} {post : α → τ → Prop} {inv : τ → Prop}
    (h : Guards (part t) g p (fun a u => post a (put u t)) fun u => inv (put u t)) :
    Guards t (g.zoom part put) (p.zoom part put) post inv := by
  rw [Guards, start_zoom, start_zoom]
  refine Protocol.Alike.bind h fun r hr => ?_
  match r, hr with
  | (.ok _, _), hr => exact .done hr
  | (.error (.error _), _), hr => exact .done hr

/-- A step of an object that is used on afterwards. -/
theorem borrow {t : τ} {post : α × σ → τ → Prop} {inv' : τ → Prop}
    (h : Guards s g p (fun a u => post (a, u) t) fun _ => inv' t) :
    Guards t (g.borrow s) (p.borrow s) post inv' := by
  rw [Guards, start_borrow, start_borrow]
  refine Protocol.Alike.bind h fun r hr => ?_
  match r, hr with
  | (.ok _, _), hr => exact .done hr
  | (.error (.error _), _), hr => exact .done hr

/-- A step with a handler for its errors. -/
theorem tryCatch {handler handler' : Failure → Session σ α} (h : Guards s g p post inv')
    (hhandler : ∀ e t, inv' t → Guards t (handler (.error e)) (handler' (.error e)) post inv) :
    Guards s (tryCatch g handler) (tryCatch p handler') post inv := by
  rw [Guards, start_tryCatch, start_tryCatch]
  refine Protocol.Alike.bind h fun r hr => ?_
  match r, hr with
  | (.ok _, _), hr => exact .done hr
  | (.error (.error e), t), hr => exact hhandler e t hr

/-- A step for each item; what holds of the state between the items is `I`. -/
theorem mapM {I : σ → Prop} {R : β → α → Prop} {g p : β → Session σ α}
    (h : ∀ x ∈ xs, ∀ t, I t → Guards t (g x) (p x) (fun a t' => R x a ∧ I t') inv) (hs : I s) :
    Guards s (xs.mapM g) (xs.mapM p) (fun as t => List.Forall₂ R xs as ∧ I t) inv := by
  induction xs generalizing s with
  | nil => exact pure ⟨.nil, hs⟩
  | cons x xs ih =>
    simp only [List.mapM_cons]
    refine (h x List.mem_cons_self s hs).andThen fun a t hx => ?_
    have hrest := ih (fun y hy => h y (List.mem_cons_of_mem x hy)) hx.2
    exact hrest.andThen fun as u hxs => pure ⟨.cons hx.1 hxs.1, hxs.2⟩

/-- Checks on a list of items. -/
theorem forM_check {f : β → Except Error PUnit} {post : PUnit → σ → Prop}
    (hok : (∀ x ∈ xs, f x = .ok ⟨⟩) → post ⟨⟩ s) (herror : inv s) :
    Guards s (xs.forM fun x => Session.check (f x)) (xs.forM fun x => Session.check (f x))
      post inv :=
  of_always (always_forM_check hok fun _ _ _ => ⟨nofun, herror⟩)

/-- **One call after the other**, whatever became of those before.  Every call has an outcome,
and none of them is a fault; `I` says how the state is when some calls are left. -/
theorem runEach {I : List β → σ → Prop} {g p : β → Session σ α}
    (h : ∀ x rest t, I (x :: rest) t → Leaves t (g x) (p x) (I rest)) (hs : I xs s) :
    Guards s (runEach g (fun _ => true) xs) (runEach p (fun _ => true) xs)
      (fun outcomes _ => outcomes.length = xs.length ∧ ∀ o ∈ outcomes, o ≠ .error .fault)
      fun _ => False := by
  induction xs generalizing s with
  | nil => exact pure ⟨rfl, fun o ho => absurd ho List.not_mem_nil⟩
  | cons x xs ih =>
    have hnext : ∀ (outcome : Except Failure α) t, outcome ≠ .error .fault → I xs t →
        Guards t (do
            let rest ← Session.runEach g (fun _ => true) xs
            Pure.pure (outcome :: rest))
          (do
            let rest ← Session.runEach p (fun _ => true) xs
            Pure.pure (outcome :: rest))
          (fun outcomes _ => outcomes.length = (x :: xs).length ∧
            ∀ o ∈ outcomes, o ≠ .error .fault) fun _ => False := by
      intro outcome t houtcome ht
      refine (ih ht).andThen fun rest u hrest => pure ⟨?_, ?_⟩
      · rw [List.length_cons, List.length_cons, hrest.1]
      · exact List.forall_mem_cons.mpr ⟨houtcome, hrest.2⟩
    simp only [Session.runEach, Bool.or_true, if_true]
    rw [Guards, start_bind, start_bind, start_attempt, start_attempt, Protocol.bind_assoc,
      Protocol.bind_assoc]
    refine Protocol.Alike.bind (h x xs s hs) fun r hr => ?_
    match r, hr with
    | (.ok a, t), hr => exact hnext (.ok a) t (fun heq => by cases heq) hr
    | (.error (.error e), t), hr =>
      exact hnext (.error (.error e)) t (fun heq => by cases heq) hr

end Guards

theorem Leaves.mono {s : σ} {g p : Session σ α} {I J : σ → Prop} (h : Leaves s g p I)
    (hIJ : ∀ t, I t → J t) : Leaves s g p J :=
  Guards.mono h (fun _ => hIJ) hIJ

end Session

open Session (Guards Leaves)

namespace LinkEnd

variable {s : σ} {inv : σ → Prop} {l : LinkEnd} {phase : String} {w : Wire α}

theorem guards_send {a : α} {post : Unit → σ → Prop} (h : post () s) :
    Guards s (l.send w a) (l.send w a) post inv :=
  Protocol.Alike.send (.done h)

theorem guards_sendThen {a : α} {g p : Unit → Session σ β} {post : β → σ → Prop}
    (h : Guards s (g ()) (p ()) post inv) :
    Guards s (l.send w a >>= g) (l.send w a >>= p) post inv :=
  Protocol.Alike.send h

/-- Whatever arrives is read or refused. -/
theorem guards_recv {post : α → σ → Prop}
    (hok : ∀ bs a, bs.length < memoryLimit → w.read bs = .ok a → post a s) (herror : inv s) :
    Guards s (l.recv phase w) (l.recv phase w) post inv := by
  have hstart : (l.recv phase w).start s = .recv [l.address] fun _ m => got w phase pure s m := by
    rw [← start_recv_bind, bind_pure]
  rw [Guards, hstart]
  refine .recv fun _ m hm => ?_
  cases m with
  | none => exact .done herror
  | some bs =>
    cases hread : w.read bs with
    | ok a =>
      simp only [got, hread]
      exact .done (hok bs a (hm bs rfl) hread)
    | error why =>
      simp only [got, hread]
      exact .done herror

theorem guards_recvList {n : Nat} {post : List α → σ → Prop}
    (hok : ∀ xs, xs.length = n → post xs s) (herror : inv s) :
    Guards s (l.recvList phase w n) (l.recvList phase w n) post inv :=
  .of_always (by simp +contextual [recvList, hok, herror])

end LinkEnd

namespace Player

variable {s : σ} {post : List α → σ → Prop} {inv : σ → Prop} {p : Player} {phase : String}
variable {w : Wire α} {x : α}

/-- There is one value for each party. -/
theorem guards_gather (hpost : ∀ xs, xs.length = p.parties → post xs s) (herror : inv s) :
    Guards s (p.gather phase w x) (p.gather phase w x) post inv :=
  .of_always (always_gather trivial hpost fun _ => ⟨nofun, herror⟩)

theorem guards_broadcast (hpost : ∀ xs, xs.length = p.parties → post xs s) (herror : inv s) :
    Guards s (p.broadcast phase w x) (p.broadcast phase w x) post inv := by
  refine .bind (guards_gather (fun received hlength => ?_) herror)
  refine .ite (fun _ => .pure (hpost _ hlength)) fun _ => ?_
  refine .bind (guards_gather (fun _ _ => ?_) herror)
  exact .ite (fun _ => .pure (hpost _ hlength)) fun _ => .fail herror

end Player

end Beaver
