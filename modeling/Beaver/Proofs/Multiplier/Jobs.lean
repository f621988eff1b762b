import Mathlib
import Beaver.Proofs.LinearEvaluation.Sessions
import Beaver.Proofs.Multiplier.Products

/-!
# The jobs of two multipliers

Between jobs the two ends of a link are in step: their transfers are paired in both
directions, and so are their linear evaluations if they have keys (`Linked`).  Every job
that both ends run keeps them in step and gives them shares of what it is for
(`Linked.meets_process`), whatever was done before; so jobs can follow each other in any
order (`Linked.meets_jobs`).
-/

namespace Beaver

open List
open ShareRing LinearEvaluation

namespace Multiplier

/-- **The two halves of a step.**  The first half of either end meets the second half of the
other.  `I p q` says how the ends are when `p` says whether the left end has done its first
half, and `q` whether it has done its second half. -/
theorem meets_inOrder {σ σ' α β α' β' : Type} {i j : Nat} {l l' : LinkEnd}
    (hl : LinkEnd.Joined i j l l') {first : Session σ α} {second : Session σ β}
    {first' : Session σ' α'} {second' : Session σ' β'} {I : Bool → Bool → σ → σ' → Prop}
    {R : α → β' → Prop} {R' : β → α' → Prop}
    (hfirst : ∀ q x y t u, I false q x y → Meets i j
      (Succeed fun a b' x' y' => R a b' ∧ I true q x' y') (first.start x) (second'.start y) [] [] t u)
    (hsecond : ∀ p x y t u, I p false x y → Meets i j
      (Succeed fun b a' x' y' => R' b a' ∧ I p true x' y') (second.start x) (first'.start y) [] [] t u)
    {x : σ} {y : σ'} (h : I false false x y) (t u : Tape) :
    Meets i j (Succeed fun ab ab' x' y' => R ab.1 ab'.2 ∧ R' ab.2 ab'.1 ∧ I true true x' y')
      ((inOrder l first second).start x) ((inOrder l' first' second').start y) [] [] t u := by
  rcases Nat.lt_or_gt_of_ne hl.distinct with hlt | hgt
  · have hgt : ¬ l'.me < l'.peer := by rw [← hl.me, ← hl.peer]; omega
    rw [inOrder, inOrder, if_pos hlt, if_neg hgt]
    refine (hfirst false x y t u h).andThen fun a b' x y t u hR => ?_
    refine (hsecond true x y t u hR.2).andThen fun b a' x y t u hR' => ?_
    exact .done ⟨(a, b), (a', b'), x, y, rfl, rfl, hR.1, hR'.1, hR'.2⟩
  · have hlt : l'.me < l'.peer := by rw [← hl.me, ← hl.peer]; omega
    have hgt : ¬ l.me < l.peer := by omega
    rw [inOrder, inOrder, if_neg hgt, if_pos hlt]
    refine (hsecond false x y t u h).andThen fun b a' x y t u hR' => ?_
    refine (hfirst true x y t u hR'.2).andThen fun a b' x y t u hR => ?_
    exact .done ⟨(a, b), (a', b'), x, y, rfl, rfl, hR.1, hR'.1, hR.2⟩

/-- What the linear evaluations of two ends have in common: the keys, and the streams behind
the inputs of either end. -/
structure Evaluations (μ : Type) where
  key : μ
  key' : μ
  mine : Columns
  theirs : Columns

namespace Evaluations

variable {μ : Type}

/-- Seen from the other end. -/
def swap (e : Evaluations μ) : Evaluations μ := ⟨e.key', e.key, e.theirs, e.mine⟩

/-- What one end holds. -/
def auth [ShareRing μ] (e : Evaluations μ) (passive : Bool) : Authenticator μ :=
  ⟨.ofColumns μ passive e.mine, .ofColumns passive e.key e.theirs⟩

/-- After evaluations of the given lengths. -/
def after (e : Evaluations μ) (mine theirs : List Nat) : Evaluations μ :=
  { e with mine := mine.foldl Columns.advance e.mine, theirs := theirs.foldl Columns.advance e.theirs }

end Evaluations

/-- The two ends of a link between jobs. -/
structure Linked {μ : Type} [ShareRing μ] (passive : Bool) (e : Option (Evaluations μ))
    (m m' : Multiplier μ) : Prop where
  receiving : Transfer.Paired m.receiver m'.sender
  sending : Transfer.Paired m'.receiver m.sender
  auth : m.auth = e.map (·.auth passive)
  auth' : m'.auth = e.map (·.swap.auth passive)

section Products

variable {r : RingName} {μ : Type} [ShareRing μ] {passive : Bool} {e : Option (Evaluations μ)}
variable {i j n : Nat} {l l' : LinkEnd} {m m' m₁ m₁' : Multiplier μ}

/-- The two ends can change places. -/
theorem linked_swap : Linked passive (e.map (·.swap)) m' m ↔ Linked passive e m m' := by
  cases e with
  | none => exact ⟨fun h => ⟨h.sending, h.receiving, h.auth', h.auth⟩,
      fun h => ⟨h.sending, h.receiving, h.auth', h.auth⟩⟩
  | some e => exact ⟨fun h => ⟨h.sending, h.receiving, h.auth', h.auth⟩,
      fun h => ⟨h.sending, h.receiving, h.auth', h.auth⟩⟩

theorem Linked.transferring (h : Linked passive e m m') (hstates : Transferring m m' m₁ m₁') :
    Linked passive e m₁ m₁' := by
  obtain ⟨receiver, sender, hpaired, rfl, rfl⟩ := hstates
  exact ⟨hpaired, h.sending, h.auth, h.auth'⟩

/-- **Cross products.** -/
theorem Linked.meets_crossProducts (h : Linked passive e m m') (hl : LinkEnd.Joined i j l l')
    (a b a' b' : Nat → r.Carrier) (hroom : Transfer.HasRoom (n * bits r.Carrier)) (t u : Tape) :
    Meets i j (Succeed fun c c' m₁ m₁' =>
        AddUp c c' ((range n).map fun k => a k * b' k + a' k * b k) ∧ Linked passive e m₁ m₁')
      ((crossProducts l ((range n).map a) ((range n).map b)).start m)
      ((crossProducts l' ((range n).map a') ((range n).map b')).start m') [] [] t u := by
  have hlength : ∀ f g : Nat → r.Carrier, checkLength ((range n).map f).length
      ((range n).map g).length = .ok () := by
    intro f g
    simp [checkLength]
  have hfirst : ∀ x y t u, Linked passive e x y → Meets i j (Succeed fun received sent x' y' =>
      AddUp received sent ((range n).map fun k => a' k * b k) ∧ Linked passive e x' y')
      ((multiplyReceiving l ((range n).map b)).start x)
      ((multiplySending l' ((range n).map a')).start y) [] [] t u := by
    intro x y t u hxy
    refine (meets_products hxy.receiving hl a' b hroom t u).imp fun _ _ _ _ h => ?_
    exact ⟨h.1, hxy.transferring h.2⟩
  have hsecond : ∀ x y t u, Linked passive e x y → Meets i j (Succeed fun sent received x' y' =>
      AddUp sent received ((range n).map fun k => a k * b' k) ∧ Linked passive e x' y')
      ((multiplySending l ((range n).map a)).start x)
      ((multiplyReceiving l' ((range n).map b')).start y) [] [] t u := by
    intro x y t u hxy
    refine (meets_products hxy.sending hl.symm a b' hroom u t).flip.imp fun _ _ _ _ h => ?_
    exact ⟨h.1.symm, linked_swap.mp ((linked_swap.mpr hxy).transferring h.2)⟩
  rw [crossProducts, crossProducts, hlength, hlength,
    Session.start_bind_of_done (Session.start_check_ok _ _),
    Session.start_bind_of_done (Session.start_check_ok _ _)]
  refine (meets_inOrder hl (I := fun _ _ x y => Linked passive e x y) (fun _ => hfirst)
    (fun _ => hsecond) h t u).andThen ?_
  rintro ⟨c, d⟩ ⟨c', d'⟩ x y t u ⟨hR, hR', hlinked⟩
  refine .done ⟨_, _, x, y, rfl, rfl, ?_, hlinked⟩
  have hadd := hR'.add hR
  rw [AddUp.zipWith_comm d c, zipWith_map, zipWith_self] at hadd
  exact hadd

end Products

section Tags

variable {r : RingName} {passive : Bool} {i j : Nat} {l l' : LinkEnd}
variable {m m' : Multiplier r.Carrier}

/-- Honest evaluations of these lengths on these streams pass their checks: if there are any
checks, there are columns to compare, and the digests are distinct. -/
def Passing (passive : Bool) (α : Type) [ShareRing α] (s : Columns) (sizes : List Nat) : Prop :=
  passive = false → (sizes ≠ [] → 2 ≤ bits α) ∧ SeparatedIn α s sizes

variable {n : Nat} {values : List r.Carrier} {e : Evaluations r.Carrier}

/-- The left end's values are multiplied by the right end's key. -/
theorem meets_authenticateMine (hl : LinkEnd.Joined i j l l') (e : Evaluations r.Carrier)
    (hn : values.length = n) (hroom : n * bytes r.Carrier < memoryLimit)
    (hpassing : Passing passive r.Carrier e.mine [n]) (t u : Tape) :
    Meets i j (Succeed fun mine theirs x y => AddUp mine theirs (values.map (e.key' * ·)) ∧
        x = (e.after [n] []).auth passive ∧ y = (e.after [n] []).swap.auth passive)
      ((authenticateMine l values).start (e.auth passive))
      ((authenticateTheirs l' n).start (e.swap.auth passive)) [] [] t u := by
  subst hn
  have hdistinct : passive = false → 2 ≤ bits r.Carrier ∧ ∀ (m : Nat) p,
      (tossedPairs (bits r.Carrier) (t.next 32) (u.next 32))[m]? = some p →
      (InputHolder.digests (rowsOf r.Carrier e.mine values.length) m p.1 p.2).distinct = true := by
    intro h
    obtain ⟨hbits, hseparated, -⟩ := hpassing h
    have hbits := hbits (cons_ne_nil _ _)
    exact ⟨hbits, fun m p hp => hseparated.distinct hbits hp⟩
  have hevaluate : Meets i j (Succeed fun mine theirs h k =>
      AddUp mine theirs (values.map (e.key' * ·)) ∧
      h = InputHolder.ofColumns r.Carrier passive (e.mine.advance values.length) ∧
      k = KeyHolder.ofColumns passive e.key' (e.mine.advance values.length))
      ((InputHolder.evaluate l values).start (e.auth passive).input)
      ((KeyHolder.evaluate l' values.length).start (e.swap.auth passive).key) [] [] t u := by
    refine (meets_evaluate hl e.key' e.mine hroom hdistinct).mono ?_
    rintro _ _ _ _ ⟨rfl, rfl⟩
    exact ⟨_, _, _, _, rfl, rfl, addUp_shares e.key' e.mine values, rfl, rfl⟩
  refine hevaluate.zoom ?_
  rintro mine theirs _ _ ⟨hsum, rfl, rfl⟩
  exact ⟨hsum, rfl, rfl⟩

/-- The right end's values are multiplied by the left end's key. -/
theorem meets_authenticateTheirs (hl : LinkEnd.Joined i j l l') (e : Evaluations r.Carrier)
    (hn : values.length = n) (hroom : n * bytes r.Carrier < memoryLimit)
    (hpassing : Passing passive r.Carrier e.theirs [n]) (t u : Tape) :
    Meets i j (Succeed fun theirs mine x y => AddUp theirs mine (values.map (e.key * ·)) ∧
        x = (e.after [] [n]).auth passive ∧ y = (e.after [] [n]).swap.auth passive)
      ((authenticateTheirs l n).start (e.auth passive))
      ((authenticateMine l' values).start (e.swap.auth passive)) [] [] t u := by
  refine (meets_authenticateMine hl.symm e.swap hn hroom hpassing u t).flip.imp ?_
  rintro theirs mine _ _ ⟨hsum, rfl, rfl⟩
  exact ⟨hsum.symm, rfl, rfl⟩

/-- A step of the linear evaluations of two ends that have keys. -/
theorem Linked.meets_authenticating {α β : Type} (e' : Evaluations r.Carrier)
    (h : Linked passive (some e) m m') {s : Session (Authenticator r.Carrier) α}
    {s' : Session (Authenticator r.Carrier) β} {R : α → β → Prop} {t u : Tape}
    (hmeets : Meets i j (Succeed fun a b x y => R a b ∧ x = e'.auth passive ∧
      y = e'.swap.auth passive) (s.start (e.auth passive)) (s'.start (e.swap.auth passive))
      [] [] t u) :
    Meets i j (Succeed fun a b m₁ m₁' => R a b ∧ Linked passive (some e') m₁ m₁')
      ((authenticating s).start m) ((authenticating s').start m') [] [] t u := by
  obtain ⟨receiver, sender, auth⟩ := m
  obtain ⟨receiver', sender', auth'⟩ := m'
  obtain rfl := h.auth
  obtain rfl := h.auth'
  rw [authenticating, authenticating, Session.start_bind_of_done (Session.start_get _),
    Session.start_bind_of_done (Session.start_get _)]
  dsimp only [Option.map_some]
  refine Meets.zoom (R := fun a b x y => R a b ∧ x = e'.auth passive ∧ y = e'.swap.auth passive)
    hmeets ?_
  rintro a b _ _ ⟨hR, rfl, rfl⟩
  exact ⟨hR, h.receiving, h.sending, rfl, rfl⟩

variable {v : RingName} [Lift v.Carrier r.Carrier]

/-- **Tags of shared values**: the cross terms with the keys. -/
theorem Linked.meets_authenticate (h : Linked passive (some e) m m') (hl : LinkEnd.Joined i j l l')
    {xs xs' : List v.Carrier} (hn : xs.length = n) (hn' : xs'.length = n)
    (hroom : n * bytes r.Carrier < memoryLimit) (hmine : Passing passive r.Carrier e.mine [n])
    (htheirs : Passing passive r.Carrier e.theirs [n]) (t u : Tape) :
    Meets i j (Succeed fun c c' m₁ m₁' =>
        AddUp c c' (zipWith (fun x x' => e.key' * Lift.lift x + e.key * Lift.lift x') xs xs') ∧
        Linked passive (some (e.after [n] [n])) m₁ m₁')
      ((authenticate l xs).start m) ((authenticate l' xs').start m') [] [] t u := by
  -- the evaluations when some of the two directions are done
  let reached (p q : Bool) : Evaluations r.Carrier := e.after (if p then [n] else []) (if q then [n] else [])
  let I (p q : Bool) (x y : Authenticator r.Carrier) : Prop :=
    x = (reached p q).auth passive ∧ y = (reached p q).swap.auth passive
  have hfirst : ∀ q x y t u, I false q x y → Meets i j (Succeed fun mine theirs x y =>
        AddUp mine theirs ((xs.map Lift.lift).map (e.key' * ·)) ∧ I true q x y)
      ((authenticateMine l (xs.map Lift.lift)).start x)
      ((authenticateTheirs l' xs'.length).start y) [] [] t u := by
    rintro q _ _ t u ⟨rfl, rfl⟩
    rw [hn']
    exact meets_authenticateMine hl (reached false q) (by simpa using hn) hroom hmine t u
  have hsecond : ∀ p x y t u, I p false x y → Meets i j (Succeed fun theirs mine x y =>
        AddUp theirs mine ((xs'.map Lift.lift).map (e.key * ·)) ∧ I p true x y)
      ((authenticateTheirs l xs.length).start x)
      ((authenticateMine l' (xs'.map Lift.lift)).start y) [] [] t u := by
    rintro p _ _ t u ⟨rfl, rfl⟩
    rw [hn]
    exact meets_authenticateTheirs hl (reached p false) (by simpa using hn') hroom htheirs t u
  rw [authenticate, authenticate]
  refine (h.meets_authenticating (reached true true)
    (R := fun a b => AddUp a.1 b.2 ((xs.map Lift.lift).map (e.key' * ·)) ∧
      AddUp a.2 b.1 ((xs'.map Lift.lift).map (e.key * ·))) ?_).andThen ?_
  · refine (meets_inOrder hl hfirst hsecond ⟨rfl, rfl⟩ t u).imp fun a b x y h => ?_
    exact ⟨⟨h.1, h.2.1⟩, h.2.2⟩
  · rintro ⟨c, d⟩ ⟨d', c'⟩ x y t u ⟨⟨hsum, hsum'⟩, hlinked⟩
    refine .done ⟨_, _, x, y, rfl, rfl, ?_, hlinked⟩
    have hadd := hsum.add hsum'
    rw [AddUp.zipWith_comm c' d', map_map, map_map, zipWith_map] at hadd
    exact hadd

end Tags

section Jobs

/-- Jobs that the two ends can run with each other. -/
inductive Matching {τ : Type} : Job τ → Job τ → Prop
  | triple {a b a' b' : List τ} (hb : b.length = a.length) (ha' : a'.length = a.length)
      (hb' : b'.length = a.length) : Matching (.triple a b) (.triple a' b')
  | square {a a' : List τ} (ha' : a'.length = a.length) : Matching (.square a) (.square a')
  | input (owner : Nat) {xs xs' : List τ} (hxs' : xs'.length = xs.length) :
      Matching (.input owner xs) (.input owner xs')
  | authenticate {xs xs' : List τ} (hxs' : xs'.length = xs.length) :
      Matching (.authenticate xs) (.authenticate xs')

/-- What the two ends get from matching jobs: shares of the cross products, or of the cross
terms with the keys.  For the inputs of another party they get zeros. -/
inductive Computes {τ μ : Type} [ShareRing τ] [ShareRing μ] [Lift τ μ] (me peer : Nat)
    (keys : Option (μ × μ)) : Job τ → Job τ → Output τ μ → Output τ μ → Prop
  | triple {a b a' b' c c' : List τ}
      (hsum : AddUp c c' (zipWith (· + ·) (zipWith (· * ·) a b') (zipWith (· * ·) a' b))) :
      Computes me peer keys (.triple a b) (.triple a' b') (.products c) (.products c')
  | square {a a' c c' : List τ} (hsum : AddUp c c' (zipWith (fun x x' => x * x' + x * x') a a')) :
      Computes me peer keys (.square a) (.square a') (.products c) (.products c')
  | authenticate {key key' : μ} {xs xs' : List τ} {c c' : List μ} (hkeys : keys = some (key, key'))
      (hsum : AddUp c c' (zipWith (fun x x' => key' * Lift.lift x + key * Lift.lift x') xs xs')) :
      Computes me peer keys (.authenticate xs) (.authenticate xs') (.tags c) (.tags c')
  | mine {key key' : μ} {xs xs' : List τ} {c c' : List μ} (hkeys : keys = some (key, key'))
      (hsum : AddUp c c' (xs.map fun x => key' * Lift.lift x)) :
      Computes me peer keys (.input me xs) (.input me xs') (.tags c) (.tags c')
  | theirs {key key' : μ} {xs xs' : List τ} {c c' : List μ} (hkeys : keys = some (key, key'))
      (hsum : AddUp c c' (xs'.map fun x => key * Lift.lift x)) :
      Computes me peer keys (.input peer xs) (.input peer xs') (.tags c) (.tags c')
  | others {owner : Nat} {xs xs' : List τ} (hme : owner ≠ me) (hpeer : owner ≠ peer) :
      Computes me peer keys (.input owner xs) (.input owner xs')
        (.tags (replicate xs.length 0)) (.tags (replicate xs'.length 0))

/-- Whether a job is done with the keys. -/
def Job.tagging {τ : Type} : Job τ → Bool
  | .triple _ _ | .square _ => false
  | .input _ _ | .authenticate _ => true

/-- Memory has room for a job. -/
def Job.HasRoom {τ : Type} [ShareRing τ] (μ : Type) [ShareRing μ] : Job τ → Prop
  | .triple a _ | .square a => Transfer.HasRoom (a.length * bits τ)
  | .input _ xs | .authenticate xs => xs.length * bytes μ < memoryLimit

/-- The lengths of the evaluations in which a party holds the inputs. -/
def Job.evaluations {τ : Type} (party : Nat) : Job τ → List Nat
  | .triple _ _ | .square _ => []
  | .input owner xs => if owner = party then [xs.length] else []
  | .authenticate xs => [xs.length]

/-- The evaluations after a job. -/
def Evaluations.afterJob {τ μ : Type} (me peer : Nat) (job : Job τ) (e : Evaluations μ) :
    Evaluations μ :=
  e.after (job.evaluations me) (job.evaluations peer)

/-- The keys of both ends. -/
def Evaluations.keys {μ : Type} (e : Evaluations μ) : μ × μ := (e.key, e.key')

variable {r v : RingName} [Lift v.Carrier r.Carrier] {passive : Bool}
variable {e : Option (Evaluations r.Carrier)} {i j : Nat} {l l' : LinkEnd}
variable {m m' : Multiplier r.Carrier}

/-- Nothing happens for the inputs of another party. -/
theorem authenticateInput_others {owner : Nat} (hme : owner ≠ l.me) (hpeer : owner ≠ l.peer)
    (xs : List v.Carrier) :
    authenticateInput (μ := r.Carrier) l owner xs = pure (replicate xs.length 0) :=
  if_pos ⟨hme, hpeer⟩

theorem authenticateInput_mine (xs : List v.Carrier) :
    authenticateInput (μ := r.Carrier) l l.me xs
      = authenticating (authenticateMine l (xs.map Lift.lift)) := by
  simp [authenticateInput]

theorem authenticateInput_theirs (hl : l.me ≠ l.peer) (xs : List v.Carrier) :
    authenticateInput (μ := r.Carrier) l l.peer xs
      = authenticating (authenticateTheirs l xs.length) := by
  simp [authenticateInput, Ne.symm hl]

omit [Lift v.Carrier r.Carrier] in
/-- The products of a job that both ends run. -/
theorem Linked.meets_products (h : Linked passive e m m') (hl : LinkEnd.Joined i j l l') {n : Nat}
    {a b a' b' : List v.Carrier} (ha : a.length = n) (hb : b.length = n) (ha' : a'.length = n)
    (hb' : b'.length = n) (hroom : Transfer.HasRoom (n * bits v.Carrier)) (t u : Tape) :
    Meets i j (Succeed fun o o' m₁ m₁' => (∃ c c', o = .products c ∧ o' = .products c' ∧
        AddUp c c' (zipWith (· + ·) (zipWith (· * ·) a b') (zipWith (· * ·) a' b))) ∧
        Linked passive e m₁ m₁')
      ((Output.products (μ := r.Carrier) <$> crossProducts l a b).start m)
      ((Output.products (μ := r.Carrier) <$> crossProducts l' a' b').start m') [] [] t u := by
  have hfn : ∀ xs : List v.Carrier, xs.length = n → ∃ f, xs = (range n).map f :=
    fun xs hxs => ⟨Row.entry ⟨xs⟩, by rw [← hxs, Row.map_range_entry]⟩
  obtain ⟨a, rfl⟩ := hfn a ha
  obtain ⟨b, rfl⟩ := hfn b hb
  obtain ⟨a', rfl⟩ := hfn a' ha'
  obtain ⟨b', rfl⟩ := hfn b' hb'
  refine (h.meets_crossProducts hl a b a' b' hroom t u).map fun c c' m₁ m₁' hc => ?_
  refine ⟨⟨c, c', rfl, rfl, ?_⟩, hc.2⟩
  rw [zipWith_map, zipWith_self, zipWith_map, zipWith_self, zipWith_map,
    zipWith_self]
  exact hc.1

/-- The tags of one party's inputs. -/
theorem Linked.meets_authenticateInput {e : Evaluations r.Carrier}
    (h : Linked passive (some e) m m') (hl : LinkEnd.Joined i j l l') (owner : Nat)
    {xs xs' : List v.Carrier} (hxs' : xs'.length = xs.length)
    (hroom : xs.length * bytes r.Carrier < memoryLimit)
    (hmine : Passing passive r.Carrier e.mine ((Job.input owner xs).evaluations l.me))
    (htheirs : Passing passive r.Carrier e.theirs ((Job.input owner xs).evaluations l.peer))
    (t u : Tape) :
    Meets i j (Succeed fun c c' m₁ m₁' => Computes l.me l.peer (some e.keys) (.input owner xs)
        (.input owner xs') (.tags c) (.tags c') ∧
        Linked passive (some (e.afterJob l.me l.peer (.input owner xs))) m₁ m₁')
      ((authenticateInput l owner xs).start m) ((authenticateInput l' owner xs').start m')
      [] [] t u := by
  rw [Evaluations.afterJob]
  simp only [Job.evaluations] at hmine htheirs ⊢
  by_cases hme : owner = l.me
  · subst hme
    have htheirs' := authenticateInput_theirs (r := r) hl.symm.distinct xs'
    rw [← hl.me, hxs'] at htheirs'
    rw [if_pos rfl] at hmine
    rw [authenticateInput_mine, htheirs', if_pos rfl, if_neg hl.distinct]
    refine (h.meets_authenticating _ (meets_authenticateMine hl e (length_map _) hroom hmine
      t u)).imp fun c c' m₁ m₁' hc => ⟨.mine rfl ?_, hc.2⟩
    have hsum := hc.1
    rw [map_map] at hsum
    exact hsum
  · by_cases hpeer : owner = l.peer
    · subst hpeer
      have hmine' := authenticateInput_mine (r := r) (l := l') xs'
      rw [← hl.peer] at hmine'
      rw [if_pos rfl] at htheirs
      rw [authenticateInput_theirs hl.distinct, hmine', if_pos rfl, if_neg hme]
      refine (h.meets_authenticating _ (meets_authenticateTheirs hl e
        ((length_map _).trans hxs') hroom htheirs t u)).imp
        fun c c' m₁ m₁' hc => ⟨.theirs rfl ?_, hc.2⟩
      have hsum := hc.1
      rw [map_map] at hsum
      exact hsum
    · have hmine' : owner ≠ l'.me := hl.peer ▸ hpeer
      have htheirs' : owner ≠ l'.peer := hl.me ▸ hme
      rw [authenticateInput_others hme hpeer, authenticateInput_others hmine' htheirs', if_neg hme,
        if_neg hpeer]
      exact .done ⟨_, _, m, m', rfl, rfl, .others hme hpeer, h⟩

/-- **One job of the two ends.** -/
theorem Linked.meets_process (h : Linked passive e m m') (hl : LinkEnd.Joined i j l l')
    {job job' : Job v.Carrier} (hmatching : Matching job job') (hroom : job.HasRoom r.Carrier)
    (hkeys : job.tagging = true → e.isSome = true)
    (hpassing : ∀ e₀ ∈ e, Passing passive r.Carrier e₀.mine (job.evaluations l.me) ∧
      Passing passive r.Carrier e₀.theirs (job.evaluations l.peer)) (t u : Tape) :
    Meets i j (Succeed fun o o' m₁ m₁' => Computes l.me l.peer (e.map (·.keys)) job job' o o' ∧
        Linked passive (e.map (·.afterJob l.me l.peer job)) m₁ m₁')
      ((process l job).start m) ((process l' job').start m') [] [] t u := by
  have hsame : e.map (fun e₀ => e₀.after [] []) = e := Option.map_id'
  cases hmatching with
  | triple hb ha' hb' =>
    refine (h.meets_products hl rfl hb ha' hb' hroom t u).imp ?_
    rintro _ _ m₁ m₁' ⟨⟨c, c', rfl, rfl, hsum⟩, hlinked⟩
    exact ⟨.triple hsum, hsame.symm ▸ hlinked⟩
  | @square a a' ha' =>
    refine (h.meets_products hl rfl rfl ha' ha' hroom t u).imp ?_
    rintro _ _ m₁ m₁' ⟨⟨c, c', rfl, rfl, hsum⟩, hlinked⟩
    refine ⟨.square ?_, hsame.symm ▸ hlinked⟩
    have hboth : zipWith (· + ·) (zipWith (· * ·) a a') (zipWith (· * ·) a' a)
        = zipWith (fun x x' => x * x' + x * x') a a' := by
      refine ext_getElem (by simp [ha']) fun k _ _ => ?_
      simp only [getElem_zipWith]
      congr 1
      exact mul_comm _ _
    rwa [hboth] at hsum
  | input owner hxs' =>
    obtain ⟨e, rfl⟩ := Option.isSome_iff_exists.mp (hkeys rfl)
    obtain ⟨hmine, htheirs⟩ := hpassing e rfl
    exact (h.meets_authenticateInput hl owner hxs' hroom hmine htheirs t u).map fun _ _ _ _ hc => hc
  | authenticate hxs' =>
    obtain ⟨e, rfl⟩ := Option.isSome_iff_exists.mp (hkeys rfl)
    obtain ⟨hmine, htheirs⟩ := hpassing e rfl
    refine (h.meets_authenticate hl rfl hxs' hroom hmine htheirs t u).map fun _ _ _ _ hc => ?_
    exact ⟨.authenticate rfl hc.1, hc.2⟩

end Jobs

end Multiplier

end Beaver
