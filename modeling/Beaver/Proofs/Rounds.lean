import Beaver.Proofs.Interleaving

/-!
# Talking to one peer after the other

To follow a run it is enough to follow one convenient order of its steps.  Two parties
whose programs meet can be taken to run them now, while all others wait
(`Settles.of_meets`).  If every party talks to its peers in ascending order, the pairs
can be taken in lexicographic order: first party 0 with all others, then party 1 with
those above it, and so on (`Settles.of_rounds`).  So no set of parties ever waits for
each other in a circle.
-/

namespace Beaver

open Function (update update_of_ne update_self)

variable {α β γ : Type}

/-- Two worlds differ at most in parties `i` and `j` and the link between them. -/
structure World.Beside (i j : Nat) (w w' : World α) : Prop where
  program : ∀ k, k ≠ i → k ≠ j → w'.program k = w.program k
  flight : ∀ key, key ≠ (i, j) → key ≠ (j, i) → w'.flight key = w.flight key
  tape : ∀ k, k ≠ i → k ≠ j → w'.tape k = w.tape k

namespace World.Beside

variable {i j : Nat} {w w₁ w₂ : World α}

theorem refl (i j : Nat) (w : World α) : Beside i j w w :=
  ⟨fun _ _ _ => rfl, fun _ _ _ => rfl, fun _ _ _ => rfl⟩

theorem trans (h₁ : Beside i j w w₁) (h₂ : Beside i j w₁ w₂) : Beside i j w w₂ where
  program k hi hj := (h₂.program k hi hj).trans (h₁.program k hi hj)
  flight key hi hj := (h₂.flight key hi hj).trans (h₁.flight key hi hj)
  tape k hi hj := (h₂.tape k hi hj).trans (h₁.tape k hi hj)

theorem symm (h : Beside i j w w₁) : Beside j i w w₁ :=
  ⟨fun k hj hi => h.program k hi hj, fun key hj hi => h.flight key hi hj,
    fun k hj hi => h.tape k hi hj⟩

theorem post (w : World α) (i j : Nat) (m : Bytes) (next : Protocol α) :
    Beside i j w (w.post i j m next) where
  program _ hi _ := update_of_ne hi _ _
  flight _ hi _ := update_of_ne hi _ _
  tape _ _ _ := rfl

theorem take (w : World α) (i j : Nat) (rest : List Bytes) (next : Protocol α) :
    Beside i j w (w.take i j rest next) where
  program _ hi _ := update_of_ne hi _ _
  flight _ _ hj := update_of_ne hj _ _
  tape _ _ _ := rfl

theorem drawn (w : World α) (i j : Nat) (next : Protocol α) :
    Beside i j w (w.drawn i next) where
  program _ hi _ := update_of_ne hi _ _
  flight _ _ _ := rfl
  tape _ hi _ := update_of_ne hi _ _

end World.Beside

/-- Parties `i` and `j` run `p` and `q`, with `xs` and `ys` on the way between them. -/
structure World.Pair (w : World α) (i j : Nat) (p q : Protocol α) (xs ys : List Bytes)
    (s u : Tape) : Prop where
  left : w.program i = p
  right : w.program j = q
  there : w.flight (i, j) = xs
  back : w.flight (j, i) = ys
  tapeLeft : w.tape i = s
  tapeRight : w.tape j = u

namespace World.Pair

variable {i j : Nat} {w : World α} {p q next : Protocol α} {m : Bytes} {xs ys : List Bytes}
variable {s u : Tape}

theorem symm (h : w.Pair i j p q xs ys s u) : w.Pair j i q p ys xs u s :=
  ⟨h.right, h.left, h.back, h.there, h.tapeRight, h.tapeLeft⟩

theorem flip_ne (hij : i ≠ j) : (j, i) ≠ (i, j) := fun h => hij (Prod.ext_iff.mp h).2

theorem post (h : w.Pair i j p q xs ys s u) (hij : i ≠ j) :
    (w.post i j m next).Pair i j next q (xs ++ [m]) ys s u where
  left := by simp [World.post]
  right := (update_of_ne (Ne.symm hij) _ _).trans h.right
  there := by simp [World.post, h.there]
  back := (update_of_ne (flip_ne hij) _ _).trans h.back
  tapeLeft := h.tapeLeft
  tapeRight := h.tapeRight

theorem take (h : w.Pair i j p q xs (m :: ys) s u) (hij : i ≠ j) :
    (w.take i j ys next).Pair i j next q xs ys s u where
  left := by simp [World.take]
  right := (update_of_ne (Ne.symm hij) _ _).trans h.right
  there := (update_of_ne (flip_ne hij).symm _ _).trans h.there
  back := by simp [World.take]
  tapeLeft := h.tapeLeft
  tapeRight := h.tapeRight

theorem drawn (h : w.Pair i j p q xs ys s u) (hij : i ≠ j) :
    (w.drawn i next).Pair i j next q xs ys s.tail u where
  left := by simp [World.drawn]
  right := (update_of_ne (Ne.symm hij) _ _).trans h.right
  there := h.there
  back := h.back
  tapeLeft := by simp [World.drawn, h.tapeLeft]
  tapeRight := (update_of_ne (Ne.symm hij) _ _).trans h.tapeRight

end World.Pair

/-- **Two parties may run first.**  If the next programs of two parties meet, and the
run settles from where they leave it, then it settles. -/
theorem Settles.of_meets {n i j : Nat} {post : Outcome α} (hi : i < n) (hj : j < n)
    (hij : i ≠ j) {p : Protocol β} {q : Protocol γ} {f : β → Protocol α} {g : γ → Protocol α}
    {R : β → γ → Tape → Tape → Prop} {w : World α} {xs ys : List Bytes} {s u : Tape}
    (hmeets : Meets i j R p q xs ys s u) (hpair : w.Pair i j (p.bind f) (q.bind g) xs ys s u)
    (hrest : ∀ b c s' u' w', R b c s' u' → w'.Pair i j (f b) (g c) [] [] s' u' →
      World.Beside i j w w' → Settles n post w') :
    Settles n post w := by
  have hji := Ne.symm hij
  induction hmeets generalizing w with
  | done hpost => exact hrest _ _ _ _ w hpost hpair (.refl i j w)
  | sendLeft _ ih =>
    refine .of_sole hi (.send hpair.left) (ih (hpair.post hij) ?_)
    intro b c s' u' w' hR hpair' hbeside
    exact hrest b c s' u' w' hR hpair' ((World.Beside.post w i j _ _).trans hbeside)
  | sendRight _ ih =>
    refine .of_sole hj (.send hpair.right) (ih (hpair.symm.post hji).symm ?_)
    intro b c s' u' w' hR hpair' hbeside
    exact hrest b c s' u' w' hR hpair' ((World.Beside.post w j i _ _).symm.trans hbeside)
  | recvLeft _ ih =>
    refine .of_sole hi (.recv hpair.left hpair.back) (ih (hpair.take hij) ?_)
    intro b c s' u' w' hR hpair' hbeside
    exact hrest b c s' u' w' hR hpair' ((World.Beside.take w i j _ _).trans hbeside)
  | recvRight _ ih =>
    refine .of_sole hj (.recv hpair.right hpair.there) (ih (hpair.symm.take hji).symm ?_)
    intro b c s' u' w' hR hpair' hbeside
    exact hrest b c s' u' w' hR hpair' ((World.Beside.take w j i _ _).symm.trans hbeside)
  | drawLeft _ ih =>
    obtain rfl := hpair.tapeLeft
    refine .of_sole hi (.draw hpair.left) (ih (hpair.drawn hij) ?_)
    intro b c s' u' w' hR hpair' hbeside
    exact hrest b c s' u' w' hR hpair' ((World.Beside.drawn w i j _).trans hbeside)
  | drawRight _ ih =>
    obtain rfl := hpair.tapeRight
    refine .of_sole hj (.draw hpair.right) (ih (hpair.symm.drawn hji).symm ?_)
    intro b c s' u' w' hR hpair' hbeside
    exact hrest b c s' u' w' hR hpair' ((World.Beside.drawn w j i _).symm.trans hbeside)

/-- How far party `a` has come in the list of all parties when those below `i` are through
and party `i` has talked to all below `j`. -/
def reached (n i j a : Nat) : Nat :=
  if a < i then n else if a = i then j else if a < j then i + 1 else i

section Reached

variable {n i j a : Nat}

theorem reached_self : reached n i j i = j := by simp [reached]

/-- Party `j` has come to party `i` when the two are to talk. -/
theorem reached_peer (hij : i < j) : reached n i j j = i := by
  simp [reached, Nat.not_lt_of_lt hij, Nat.ne_of_gt hij]

theorem reached_peer_succ (hij : i < j) : reached n i (j + 1) j = i + 1 := by
  simp [reached, Nat.not_lt_of_lt hij, Nat.ne_of_gt hij]

/-- Nobody else gets any further when the two have talked. -/
theorem reached_succ (hi : a ≠ i) (hj : a ≠ j) : reached n i (j + 1) a = reached n i j a := by
  have hlt : a < j + 1 ↔ a < j := by omega
  simp only [reached, hi, if_false, hlt]

/-- When a party is through, the next one has come to itself, which it skips. -/
theorem reached_next (h : i + 1 < n) : reached n i n (i + 1) = i + 1 := by
  grind [reached]

theorem reached_row (ha : a < n) (hne : a ≠ i + 1) :
    reached n i n a = reached n (i + 1) (i + 2) a := by
  grind [reached]

theorem reached_first (ha : a ≠ 0) : reached n 0 1 a = 0 := by
  grind [reached]

theorem reached_last (ha : a < i + 1) : reached (i + 1) i (i + 1) a = i + 1 := by
  grind [reached]

end Reached

/-- Every party `a` runs `Q a m r` when it has come to party `m` and has results `r` from
those before.  It then runs `slot a m`, and skips itself. -/
structure Rounds (n : Nat) (R : Nat → Nat → β → β → Prop) (T : Tape → Tape → Prop)
    (Q : Nat → Nat → (Nat → β) → Protocol α) (slot : Nat → Nat → Protocol γ)
    (next : Nat → Nat → (Nat → β) → γ → Protocol α) : Prop where
  refl : ∀ s, T s s
  trans : ∀ s s' s'', T s s' → T s' s'' → T s s''
  skip : ∀ i r, i < n → Q i i r = Q i (i + 1) r
  unfold : ∀ i j r, i < n → j < n → i ≠ j → Q i j r = (slot i j).bind (next i j r)
  meets : ∀ i j, i < j → j < n → ∀ s u, Meets i j
    (fun b c s' u' => T s s' ∧ T u u' ∧ ∃ b' c', R i j b' c' ∧
      (∀ r, next i j r b = Q i (j + 1) (update r j b')) ∧
      ∀ r, next j i r c = Q j (i + 1) (update r i c'))
    (slot i j) (slot j i) [] [] s u

/-- The run has come to parties `i` and `j`, with results `r` so far. -/
structure Rounds.Stage (n : Nat) (R : Nat → Nat → β → β → Prop) (T : Tape → Tape → Prop)
    (Q : Nat → Nat → (Nat → β) → Protocol α) (tape : Nat → Tape) (i j : Nat)
    (r : Nat → Nat → β) (w : World α) : Prop where
  program : ∀ a < n, w.program a = Q a (reached n i j a) (r a)
  flight : ∀ key, w.flight key = []
  tape : ∀ a < n, T (tape a) (w.tape a)
  results : ∀ a b, a < b → b < n → (a < i ∨ a = i ∧ b < j) → R a b (r a b) (r b a)

namespace Rounds

variable {n : Nat} {post : Outcome α} {R : Nat → Nat → β → β → Prop} {T : Tape → Tape → Prop}
variable {Q : Nat → Nat → (Nat → β) → Protocol α} {slot : Nat → Nat → Protocol γ}
variable {next : Nat → Nat → (Nat → β) → γ → Protocol α} {tape : Nat → Tape}
variable {i j : Nat} {r : Nat → Nat → β} {w : World α}

/-- The results with those of parties `i` and `j` about each other. -/
def learned (r : Nat → Nat → β) (i j : Nat) (b c : β) : Nat → Nat → β :=
  update (update r i (update (r i) j b)) j (update (r j) i c)

section Learned

variable {a k : Nat} {b c : β}

theorem learned_left (hij : i ≠ j) : learned r i j b c i = update (r i) j b := by
  simp [learned, hij]

theorem learned_right : learned r i j b c j = update (r j) i c := by
  simp [learned]

theorem learned_row (hi : a ≠ i) (hj : a ≠ j) : learned r i j b c a = r a := by
  simp [learned, hi, hj]

theorem learned_other (hij : i ≠ j) (h : ¬ (a = i ∧ k = j)) (h' : ¬ (a = j ∧ k = i)) :
    learned r i j b c a k = r a k := by
  by_cases hi : a = i
  · subst hi
    rw [learned_left hij, update_of_ne fun hk => h ⟨rfl, hk⟩]
  · by_cases hj : a = j
    · subst hj
      rw [learned_right, update_of_ne fun hk => h' ⟨rfl, hk⟩]
    · rw [learned_row hi hj]

end Learned

/-- **The next two parties talk.** -/
theorem step (h : Rounds n R T Q slot next) (hij : i < j) (hj : j < n)
    (hw : Stage n R T Q tape i j r w)
    (hrest : ∀ r' w', Stage n R T Q tape i (j + 1) r' w' → Settles n post w') :
    Settles n post w := by
  have hi : i < n := Nat.lt_trans hij hj
  have hne : i ≠ j := Nat.ne_of_lt hij
  have hpair : w.Pair i j ((slot i j).bind (next i j (r i))) ((slot j i).bind (next j i (r j)))
      [] [] (w.tape i) (w.tape j) := by
    refine ⟨?_, ?_, hw.flight _, hw.flight _, rfl, rfl⟩
    · rw [hw.program i hi, reached_self, h.unfold i j (r i) hi hj hne]
    · rw [hw.program j hj, reached_peer hij, h.unfold j i (r j) hj hi (Ne.symm hne)]
  refine Settles.of_meets hi hj hne (h.meets i j hij hj _ _) hpair ?_
  rintro b c s u w' ⟨hTi, hTj, b', c', hR, hnext_i, hnext_j⟩ hpair' hbeside
  refine hrest (learned r i j b' c') w' ⟨?_, ?_, ?_, ?_⟩
  · intro a ha
    by_cases hai : a = i
    · rw [hai, hpair'.left, hnext_i, reached_self, learned_left hne]
    · by_cases haj : a = j
      · rw [haj, hpair'.right, hnext_j, reached_peer_succ hij, learned_right]
      · rw [hbeside.program a hai haj, hw.program a ha, reached_succ hai haj, learned_row hai haj]
  · intro key
    by_cases hkey : key = (i, j)
    · rw [hkey, hpair'.there]
    · by_cases hkey' : key = (j, i)
      · rw [hkey', hpair'.back]
      · rw [hbeside.flight key hkey hkey', hw.flight]
  · intro a ha
    by_cases hai : a = i
    · rw [hai, hpair'.tapeLeft]
      exact h.trans _ _ _ (hw.tape i hi) hTi
    · by_cases haj : a = j
      · rw [haj, hpair'.tapeRight]
        exact h.trans _ _ _ (hw.tape j hj) hTj
      · rw [hbeside.tape a hai haj]
        exact hw.tape a ha
  · intro a b hab hb hreached
    by_cases hnew : a = i ∧ b = j
    · obtain ⟨rfl, rfl⟩ := hnew
      rw [learned_left hne, learned_right, update_self, update_self]
      exact hR
    · -- the pair `(b, a)` is not `(i, j)`, since `i < j`
      rw [learned_other hne hnew (by omega), learned_other hne (by omega) (by omega)]
      exact hw.results a b hab hb (by omega)

/-- Party `i` talks to all above it that are left. -/
theorem row (h : Rounds n R T Q slot next)
    (hrest : ∀ r' w', Stage n R T Q tape i n r' w' → Settles n post w') :
    ∀ (d j : Nat) (r : Nat → Nat → β) (w : World α), j + d = n → i < j →
      Stage n R T Q tape i j r w → Settles n post w := by
  intro d
  induction d with
  | zero =>
    intro j r w hd _ hw
    exact hrest r w (hd ▸ hw)
  | succ d ih =>
    intro j r w hd hij hw
    refine h.step hij (by omega) hw ?_
    intro r' w' hw'
    exact ih (j + 1) r' w' (by omega) (by omega) hw'

/-- The next party begins where the one before has ended. -/
theorem Stage.succ (h : Rounds n R T Q slot next)
    (hw : Stage n R T Q tape i n r w) : Stage n R T Q tape (i + 1) (i + 2) r w where
  program a ha := by
    rw [hw.program a ha]
    by_cases hself : a = i + 1
    · subst hself
      rw [reached_next ha, h.skip _ _ ha, reached_self]
    · rw [reached_row ha hself]
  flight := hw.flight
  tape := hw.tape
  results a b hab hb hreached := hw.results a b hab hb (by omega)

/-- All parties from `i` on talk to those above them. -/
theorem all (h : Rounds n R T Q slot next)
    (hrest : ∀ (r' : Nat → Nat → β) (w' : World α),
      (∀ a b, a < b → b < n → R a b (r' a b) (r' b a)) →
      (∀ a < n, w'.program a = Q a n (r' a)) → (∀ key, w'.flight key = []) →
      (∀ a < n, T (tape a) (w'.tape a)) → Settles n post w') :
    ∀ (d i : Nat) (r : Nat → Nat → β) (w : World α), i + d + 1 = n →
      Stage n R T Q tape i (i + 1) r w → Settles n post w := by
  intro d
  induction d with
  | zero =>
    intro i r w hd hw
    obtain rfl : n = i + 1 := by omega
    refine hrest r w ?_ ?_ hw.flight hw.tape
    · intro a b hab hb
      exact hw.results a b hab hb (by omega)
    · intro a ha
      rw [hw.program a ha, reached_last ha]
  | succ d ih =>
    intro i r w hd hw
    refine h.row ?_ (d + 1) (i + 1) r w (by omega) (by omega) hw
    intro r' w' hw'
    exact ih (i + 1) r' w' (by omega) (.succ h hw')

end Rounds

/-- **Talking to one peer after the other.**  If every party goes through all others in
ascending order, the slots of every two parties meet, and the run settles from the
results whatever these are, then it settles. -/
theorem Settles.of_rounds [Nonempty β] {n : Nat} {post : Outcome α}
    {R : Nat → Nat → β → β → Prop} {T : Tape → Tape → Prop}
    {Q : Nat → Nat → (Nat → β) → Protocol α} {slot : Nat → Nat → Protocol γ}
    {next : Nat → Nat → (Nat → β) → γ → Protocol α} (h : Rounds n R T Q slot next)
    {w : World α} (hprogram : ∀ i < n, ∀ r, w.program i = Q i 0 r)
    (hflight : ∀ key, w.flight key = [])
    (hrest : ∀ (r : Nat → Nat → β) (w' : World α),
      (∀ i j, i < j → j < n → R i j (r i j) (r j i)) →
      (∀ i < n, w'.program i = Q i n (r i)) → (∀ key, w'.flight key = []) →
      (∀ i < n, T (w.tape i) (w'.tape i)) → Settles n post w') :
    Settles n post w := by
  obtain ⟨b⟩ := ‹Nonempty β›
  cases n with
  | zero => exact hrest (fun _ _ => b) w (by simp) (by simp) hflight (by simp)
  | succ n =>
    refine h.all hrest n 0 (fun _ _ => b) w (by omega)
      ⟨fun a ha => ?_, hflight, fun a _ => h.refl (w.tape a), by omega⟩
    rw [hprogram a ha fun _ => b]
    by_cases hzero : a = 0
    · subst hzero
      rw [h.skip 0 _ ha, reached_self]
    · rw [reached_first hzero]

end Beaver
