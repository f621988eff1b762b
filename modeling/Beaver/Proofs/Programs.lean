import Beaver.Session

/-!
# Programs step by step

A step of an object with state unfolds to a program that carries the outcome and
the state.  The lemmas below say how each elementary step unfolds; `start_bind`
says how two steps follow each other: the second one starts from the state the
first one left, unless the first one failed.
-/

namespace Beaver

namespace Protocol

variable {α β γ : Type}

@[simp]
theorem pure_eq_done (a : α) : (pure a : Protocol α) = done a := rfl

@[simp]
theorem monad_bind_eq (p : Protocol α) (f : α → Protocol β) : p >>= f = p.bind f := rfl

@[simp]
theorem done_bind (a : α) (f : α → Protocol β) : (done a).bind f = f a := rfl

@[simp]
theorem send_bind (peer : Nat) (message : Bytes) (next : Protocol α) (f : α → Protocol β) :
    (send peer message next).bind f = send peer message (next.bind f) := rfl

@[simp]
theorem recv_bind (peers : List Nat) (next : Fin peers.length → Option Bytes → Protocol α)
    (f : α → Protocol β) :
    (recv peers next).bind f = recv peers fun i m => (next i m).bind f := rfl

@[simp]
theorem draw_bind (n : Nat) (next : Bytes → Protocol α) (f : α → Protocol β) :
    (draw n next).bind f = draw n fun bs => (next bs).bind f := rfl

@[simp]
theorem close_bind (peer : Nat) (next : Protocol α) (f : α → Protocol β) :
    (close peer next).bind f = close peer (next.bind f) := rfl

@[simp]
theorem bind_done (p : Protocol α) : p.bind done = p := by
  induction p with
  | done a => rfl
  | send peer message next ih => simp [ih]
  | recv peers next ih => simp [ih]
  | draw n next ih => simp [ih]
  | close peer next ih => simp [ih]

theorem bind_assoc (p : Protocol α) (f : α → Protocol β) (g : β → Protocol γ) :
    (p.bind f).bind g = p.bind fun a => (f a).bind g := by
  induction p with
  | done a => rfl
  | send peer message next ih => simp [ih]
  | recv peers next ih => simp [ih]
  | draw n next ih => simp [ih]
  | close peer next ih => simp [ih]

instance : LawfulMonad Protocol :=
  LawfulMonad.mk' Protocol (fun p => bind_done p) (fun _ _ => rfl) (fun p f g => bind_assoc p f g)

end Protocol

namespace Session

variable {σ τ α β : Type}

/-- What follows a step: the next step after a success, nothing after a failure. -/
def resume (f : α → Session σ β) (r : Except Failure α × σ) :
    Protocol (Except Failure β × σ) :=
  match r.1 with
  | .ok a => (f a).start r.2
  | .error e => .done (.error e, r.2)

@[simp]
theorem resume_ok (f : α → Session σ β) (a : α) (t : σ) :
    resume f (.ok a, t) = (f a).start t := rfl

@[simp]
theorem resume_error (f : α → Session σ β) (e : Failure) (t : σ) :
    resume f (.error e, t) = .done (.error e, t) := rfl

/-- **Steps follow each other.** -/
theorem start_bind (s : Session σ α) (f : α → Session σ β) (t : σ) :
    (s >>= f).start t = (s.start t).bind (resume f) := by
  show (s.start t).bind _ = _
  congr 1
  funext r
  rcases r with ⟨_ | _, _⟩ <;> rfl

/-- A step that is done at once gives way to the next one. -/
theorem start_bind_of_done {s : Session σ α} {t t' : σ} {a : α}
    (h : s.start t = .done (.ok a, t')) (f : α → Session σ β) :
    (s >>= f).start t = (f a).start t' := by
  rw [start_bind, h]
  rfl

@[simp]
theorem start_pure (a : α) (t : σ) : (pure a : Session σ α).start t = .done (.ok a, t) := rfl

theorem start_map (f : α → β) (s : Session σ α) (t : σ) :
    (f <$> s).start t = (s.start t).bind fun r => .done (r.1.map f, r.2) := by
  show (s.start t).bind _ = _
  congr 1
  funext r
  rcases r with ⟨_ | _, _⟩ <;> rfl

@[simp]
theorem start_get (t : σ) : (get : Session σ σ).start t = .done (.ok t, t) := rfl

@[simp]
theorem start_set (u t : σ) : (set u : Session σ PUnit).start t = .done (.ok ⟨⟩, u) := rfl

@[simp]
theorem start_modify (f : σ → σ) (t : σ) :
    (modify f : Session σ PUnit).start t = .done (.ok ⟨⟩, f t) := rfl

@[simp]
theorem start_throw (e : Failure) (t : σ) :
    (throw e : Session σ α).start t = .done (.error e, t) := rfl

@[simp]
theorem start_fail (e : Error) (t : σ) :
    (fail e : Session σ α).start t = .done (.error (.error e), t) := rfl

@[simp]
theorem start_perform (p : Protocol α) (t : σ) :
    (perform p : Session σ α).start t = p.bind fun a => .done (.ok a, t) := by
  show (p.bind _).bind _ = _
  rw [Protocol.bind_assoc]
  rfl

@[simp]
theorem start_check_ok (a : α) (t : σ) :
    (check (.ok a) : Session σ α).start t = .done (.ok a, t) := rfl

@[simp]
theorem start_check_error (e : Error) (t : σ) :
    (check (.error e) : Session σ α).start t = .done (.error (.error e), t) := rfl

/-- Checks that all succeed leave no trace. -/
theorem start_forM_check {f : β → Except Error PUnit} {xs : List β} (h : ∀ x ∈ xs, f x = .ok ⟨⟩)
    (t : σ) : (xs.forM fun x => (check (f x) : Session σ PUnit)).start t = .done (.ok ⟨⟩, t) := by
  induction xs with
  | nil => rfl
  | cons x xs ih =>
    have hx : (check (f x) : Session σ PUnit).start t = .done (.ok ⟨⟩, t) := by
      rw [h x List.mem_cons_self]
      rfl
    rw [List.forM_eq_forM, List.forM_cons, start_bind_of_done hx]
    exact ih fun y hy => h y (List.mem_cons_of_mem x hy)

@[simp]
theorem start_total_some (a : α) (t : σ) :
    (total (some a) : Session σ α).start t = .done (.ok a, t) := rfl

@[simp]
theorem start_total_none (t : σ) :
    (total none : Session σ α).start t = .done (.error .fault, t) := rfl

theorem start_draw (n : Nat) (t : σ) :
    (draw n : Session σ Bytes).start t = .draw n fun bs => .done (.ok bs, t) := rfl

/-- A step on a part of the state starts from that part and puts it back. -/
theorem start_zoom (part : τ → σ) (put : σ → τ → τ) (s : Session σ α) (t : τ) :
    (s.zoom part put).start t
      = (s.start (part t)).bind fun r => .done (r.1, put r.2 t) := rfl

theorem start_borrow (s : Session σ α) (u : σ) (t : τ) :
    (s.borrow u).start t
      = (s.start u).bind fun r => .done (r.1.map (·, r.2), t) := rfl

theorem start_attempt (s : Session σ α) (t : σ) :
    s.attempt.start t = (s.start t).bind fun r => .done (.ok r.1, r.2) := rfl

/-- What follows a step with a handler: nothing after a success, the handler after a
failure. -/
def rescue (handler : Failure → Session σ α) (r : Except Failure α × σ) :
    Protocol (Except Failure α × σ) :=
  match r.1 with
  | .ok a => .done (.ok a, r.2)
  | .error e => (handler e).start r.2

theorem start_tryCatch (s : Session σ α) (handler : Failure → Session σ α) (t : σ) :
    (tryCatch s handler).start t = (s.start t).bind (rescue handler) := by
  show (s.start t).bind _ = _
  congr 1
  funext r
  rcases r with ⟨_ | _, _⟩ <;> rfl

end Session

end Beaver
