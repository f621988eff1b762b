import Mathlib.Data.List.Induction
import Beaver.Proofs.Endings

/-!
# Runs of calls

A caller makes one call after the other and goes on whatever becomes of it.  The log of such a
run has an entry for each call: the states around it, what was done in it and what came of it.
-/

namespace Beaver.Session

/-- A call with what was done in it, what came of it and the states around it. -/
structure Entry (σ κ α : Type) where
  before : σ
  call : κ
  events : List Event
  result : Except Failure α
  after : σ

variable {σ κ α : Type} {can : Entry σ κ α → Prop} {s t u : σ}
variable {log log' : List (Entry σ κ α)} {e : Entry σ κ α}

/-- Calls one by one, each of which can have gone as it did. -/
inductive Run (can : Entry σ κ α → Prop) (s : σ) : List (Entry σ κ α) → σ → Prop where
  | nil : Run can s [] s
  | snoc {log : List (Entry σ κ α)} {e : Entry σ κ α} (h : Run can s log e.before) (he : can e) :
      Run can s (log ++ [e]) e.after

namespace Run

theorem single (he : can e) : Run can e.before [e] e.after :=
  .snoc .nil he

theorem append (h : Run can s log t) (h' : Run can t log' u) : Run can s (log ++ log') u := by
  induction h' with
  | nil => rwa [List.append_nil]
  | snoc _ he ih =>
    rw [← List.append_assoc]
    exact .snoc ih he

theorem of_snoc (h : Run can s (log ++ [e]) t) : Run can s log e.before ∧ can e ∧ t = e.after := by
  generalize hall : log ++ [e] = all at h
  cases h with
  | nil => exact absurd hall (by simp)
  | snoc h he =>
    obtain ⟨rfl, hlast⟩ := List.append_inj' hall rfl
    cases hlast
    exact ⟨h, he, rfl⟩

theorem of_append (h : Run can s (log ++ log') t) : ∃ u, Run can s log u ∧ Run can u log' t := by
  induction log' using List.reverseRecOn generalizing t with
  | nil =>
    rw [List.append_nil] at h
    exact ⟨t, h, .nil⟩
  | append_singleton log' e ih =>
    rw [← List.append_assoc] at h
    obtain ⟨hbefore, he, rfl⟩ := h.of_snoc
    obtain ⟨u, hfirst, hsecond⟩ := ih hbefore
    exact ⟨u, hfirst, .snoc hsecond he⟩

/-- The state in which one of many calls is made. -/
theorem of_append_cons (h : Run can s (log ++ e :: log') t) : Run can s log e.before ∧ can e := by
  rw [List.append_cons] at h
  obtain ⟨u, hfirst, -⟩ := h.of_append
  obtain ⟨hbefore, he, -⟩ := hfirst.of_snoc
  exact ⟨hbefore, he⟩

/-- What every call keeps, a run keeps. -/
theorem keeps {P : σ → Prop} (h : Run can s log t) (hs : P s)
    (hstep : ∀ e, can e → P e.before → P e.after) : P t := by
  induction h with
  | nil => exact hs
  | snoc _ he ih => exact hstep _ he ih

end Run

end Beaver.Session
