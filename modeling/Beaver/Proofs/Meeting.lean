import Beaver.Proofs.Programs

/-!
# Two programs on one link

`Meets i j post p q xs ys s u` says that program `p` of party `i` and program `q` of
party `j`, with the messages `xs` on their way to `j` and `ys` on their way to `i`,
both come to an end, with nothing left on its way and with results as `post` says.
Their private randomness is on the tapes `s` and `u`.

The definition follows one order of the steps, whichever is convenient.  The key
fact is that the order does not matter: whatever step one of the two programs can
make, they still meet afterwards (`send_inv`, `recv_inv`, `draw_inv`).
-/

namespace Beaver

/-- A party's private randomness from now on: draw number `k` of `n` bytes. -/
@[ext]
structure Tape where
  bytes : (k n : Nat) → Bytes
  length_bytes : ∀ k n, (bytes k n).length = n

namespace Tape

/-- What the next draw of `n` bytes gives. -/
def next (s : Tape) (n : Nat) : Bytes := s.bytes 0 n

/-- The randomness after the next draw. -/
def tail (s : Tape) : Tape := ⟨fun k => s.bytes (k + 1), fun k => s.length_bytes (k + 1)⟩

@[simp]
theorem length_next (s : Tape) (n : Nat) : (s.next n).length = n := s.length_bytes 0 n

/-- The randomness after `k` draws. -/
def drop (s : Tape) (k : Nat) : Tape := ⟨fun m => s.bytes (k + m), fun m => s.length_bytes (k + m)⟩

@[simp]
theorem drop_zero (s : Tape) : s.drop 0 = s := by
  ext1
  funext m
  exact congrArg s.bytes (Nat.zero_add m)

theorem tail_drop (s : Tape) (k : Nat) : (s.drop k).tail = s.drop (k + 1) := by
  ext1
  funext m
  exact congrArg s.bytes (Nat.add_right_comm k m 1)

/-- The randomness with one more draw in front. -/
def cons (bs : Bytes) (s : Tape) : Tape where
  bytes
    | 0, n => if bs.length = n then bs else List.replicate n 0
    | k + 1, n => s.bytes k n
  length_bytes
    | 0, n => by
        by_cases h : bs.length = n
        · simp [h]
        · simp [h]
    | k + 1, n => s.length_bytes k n

@[simp]
theorem next_cons (bs : Bytes) (s : Tape) : (s.cons bs).next bs.length = bs := by
  simp [next, cons]

@[simp]
theorem tail_cons (bs : Bytes) (s : Tape) : (s.cons bs).tail = s := rfl

end Tape

variable {α β γ δ : Type}

/-- Whether a program has a step to make when `ys` is on its way to it. -/
def Protocol.Ready (p : Protocol α) (ys : List Bytes) : Prop :=
  match p with
  | .send .. | .draw .. => True
  | .recv .. => ys ≠ []
  | .done _ | .close .. => False

/-- Two programs come to an end together. -/
inductive Meets (i j : Nat) (post : α → β → Tape → Tape → Prop) :
    Protocol α → Protocol β → List Bytes → List Bytes → Tape → Tape → Prop
  | done {a b s u} (hpost : post a b s u) : Meets i j post (.done a) (.done b) [] [] s u
  | sendLeft {m next q xs ys s u} (h : Meets i j post next q (xs ++ [m]) ys s u) :
      Meets i j post (.send j m next) q xs ys s u
  | sendRight {m p next xs ys s u} (h : Meets i j post p next xs (ys ++ [m]) s u) :
      Meets i j post p (.send i m next) xs ys s u
  | recvLeft {m next q xs ys s u}
      (h : Meets i j post (next ⟨0, Nat.zero_lt_one⟩ (some m)) q xs ys s u) :
      Meets i j post (.recv [j] next) q xs (m :: ys) s u
  | recvRight {m p next xs ys s u}
      (h : Meets i j post p (next ⟨0, Nat.zero_lt_one⟩ (some m)) xs ys s u) :
      Meets i j post p (.recv [i] next) (m :: xs) ys s u
  | drawLeft {n next q xs ys s u} (h : Meets i j post (next (s.next n)) q xs ys s.tail u) :
      Meets i j post (.draw n next) q xs ys s u
  | drawRight {n p next xs ys s u} (h : Meets i j post p (next (u.next n)) xs ys s u.tail) :
      Meets i j post p (.draw n next) xs ys s u

namespace Meets

variable {i j : Nat} {post : α → β → Tape → Tape → Prop}
variable {p : Protocol α} {q : Protocol β} {xs ys : List Bytes} {s u : Tape}

/-- The two ends can change places. -/
theorem symm (h : Meets i j post p q xs ys s u) :
    Meets j i (fun b a u s => post a b s u) q p ys xs u s := by
  induction h with
  | done hpost => exact .done hpost
  | sendLeft _ ih => exact .sendRight ih
  | sendRight _ ih => exact .sendLeft ih
  | recvLeft _ ih => exact .recvRight ih
  | recvRight _ ih => exact .recvLeft ih
  | drawLeft _ ih => exact .drawRight ih
  | drawRight _ ih => exact .drawLeft ih

/-- **Programs that follow each other.**  If the first parts meet, and the second
parts meet whatever the first ones gave, the whole programs meet. -/
theorem bind {post' : γ → δ → Tape → Tape → Prop} {f : α → Protocol γ} {g : β → Protocol δ}
    (h : Meets i j post p q xs ys s u)
    (hnext : ∀ a b s u, post a b s u → Meets i j post' (f a) (g b) [] [] s u) :
    Meets i j post' (p.bind f) (q.bind g) xs ys s u := by
  induction h with
  | done hpost => exact hnext _ _ _ _ hpost
  | sendLeft _ ih => exact .sendLeft ih
  | sendRight _ ih => exact .sendRight ih
  | recvLeft _ ih => exact .recvLeft ih
  | recvRight _ ih => exact .recvRight ih
  | drawLeft _ ih => exact .drawLeft ih
  | drawRight _ ih => exact .drawRight ih

theorem mono {post' : α → β → Tape → Tape → Prop} (h : Meets i j post p q xs ys s u)
    (himp : ∀ a b s u, post a b s u → post' a b s u) :
    Meets i j post' p q xs ys s u := by
  rw [← p.bind_done, ← q.bind_done]
  exact h.bind fun a b s u hpost => .done (himp a b s u hpost)

variable {peer : Nat} {m : Bytes} {next : Protocol α} {peers : List Nat} {a : α}

/-- A program about to send sends to the other end, and they meet afterwards. -/
theorem send_inv (h : Meets i j post (.send peer m next) q xs ys s u) :
    peer = j ∧ Meets i j post next q (xs ++ [m]) ys s u := by
  generalize hp : Protocol.send peer m next = p at h
  induction h with
  | done _ | recvLeft _ _ | drawLeft _ _ => cases hp
  | sendLeft h _ => cases hp; exact ⟨rfl, h⟩
  | sendRight _ ih => exact ⟨(ih hp).1, .sendRight (ih hp).2⟩
  | recvRight _ ih => exact ⟨(ih hp).1, .recvRight (ih hp).2⟩
  | drawRight _ ih => exact ⟨(ih hp).1, .drawRight (ih hp).2⟩

/-- A program that waits does so for the other end only. -/
theorem recv_peers {next : Fin peers.length → Option Bytes → Protocol α}
    (h : Meets i j post (.recv peers next) q xs ys s u) : peers = [j] := by
  generalize hp : Protocol.recv peers next = p at h
  induction h with
  | done _ | sendLeft _ _ | drawLeft _ _ => cases hp
  | recvLeft _ _ => cases hp; rfl
  | sendRight _ ih | recvRight _ ih | drawRight _ ih => exact ih hp

/-- A program that waits can take the first message on its way, and they meet
afterwards. -/
theorem recv_inv {next : Fin [j].length → Option Bytes → Protocol α}
    (h : Meets i j post (.recv [j] next) q xs (m :: ys) s u) :
    Meets i j post (next ⟨0, Nat.zero_lt_one⟩ (some m)) q xs ys s u := by
  generalize hp : Protocol.recv [j] next = p at h
  generalize hys : m :: ys = zs at h
  induction h generalizing ys with
  | done _ | sendLeft _ _ | drawLeft _ _ => cases hp
  | sendRight _ ih =>
    subst hys
    exact .sendRight (ih hp rfl)
  | recvLeft h _ => cases hp; cases hys; exact h
  | recvRight _ ih => exact .recvRight (ih hp hys)
  | drawRight _ ih => exact .drawRight (ih hp hys)

/-- A program about to draw takes what is on its tape, and they meet afterwards. -/
theorem draw_inv {n : Nat} {next : Bytes → Protocol α}
    (h : Meets i j post (.draw n next) q xs ys s u) :
    Meets i j post (next (s.next n)) q xs ys s.tail u := by
  generalize hp : Protocol.draw n next = p at h
  induction h with
  | done _ | sendLeft _ _ | recvLeft _ _ => cases hp
  | sendRight _ ih => exact .sendRight (ih hp)
  | recvRight _ ih => exact .recvRight (ih hp)
  | drawLeft h _ => cases hp; exact h
  | drawRight _ ih => exact .drawRight (ih hp)

/-- Nobody closes the link. -/
theorem not_close :
    ¬ Meets i j post (.close peer next) q xs ys s u := by
  intro h
  generalize hp : Protocol.close peer next = p at h
  induction h with
  | done _ | sendLeft _ _ | recvLeft _ _ | drawLeft _ _ => cases hp
  | sendRight _ ih | recvRight _ ih | drawRight _ ih => exact ih hp

/-- Nothing is on its way to a program that is done. -/
theorem done_left (h : Meets i j post (.done a) q xs ys s u) : ys = [] := by
  generalize hp : Protocol.done a = p at h
  induction h with
  | done hpost => rfl
  | sendLeft _ _ | recvLeft _ _ | drawLeft _ _ => cases hp
  | sendRight _ ih => exact absurd (ih hp) (by simp)
  | recvRight _ ih | drawRight _ ih => exact ih hp

/-- Nobody waits for a program that is done when nothing is on its way. -/
theorem not_abandoned {next : Fin peers.length → Option Bytes → Protocol β} :
    ¬ Meets i j post (.done a) (.recv peers next) [] ys s u := by
  intro h
  cases h

/-- Two programs that are not both done can go on: one of them has a step to make. -/
theorem ready (h : Meets i j post p q xs ys s u) :
    (p.isDone = true ∧ q.isDone = true) ∨ p.Ready ys ∨ q.Ready xs := by
  cases h with
  | done _ => exact .inl ⟨rfl, rfl⟩
  | sendLeft _ => exact .inr (.inl trivial)
  | sendRight _ => exact .inr (.inr trivial)
  | recvLeft _ => exact .inr (.inl (List.cons_ne_nil _ _))
  | recvRight _ => exact .inr (.inr (List.cons_ne_nil _ _))
  | drawLeft _ => exact .inr (.inl trivial)
  | drawRight _ => exact .inr (.inr trivial)

/-- There are results, and a program that is done keeps its own. -/
theorem exists_results (h : Meets i j post p q xs ys s u) :
    ∃ a b s' u', post a b s' u' ∧ (∀ a', p = .done a' → a = a') ∧
      ∀ b', q = .done b' → b = b' := by
  induction h with
  | @done a b s u hpost =>
    exact ⟨a, b, s, u, hpost, fun a' h => by cases h; rfl, fun b' h => by cases h; rfl⟩
  | sendLeft _ ih | recvLeft _ ih | drawLeft _ ih =>
    obtain ⟨a, b, s', u', hpost, _, hb⟩ := ih
    exact ⟨a, b, s', u', hpost, (fun a' h => by cases h), hb⟩
  | sendRight _ ih | recvRight _ ih | drawRight _ ih =>
    obtain ⟨a, b, s', u', hpost, ha, _⟩ := ih
    exact ⟨a, b, s', u', hpost, ha, fun b' h => by cases h⟩

end Meets

end Beaver
