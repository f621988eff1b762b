import Beaver.Proofs.BroadcastAgreement

/-!
# Coin tosses among corrupted parties

Commitments are broadcast, so that all honest parties hold the same ones, and a
commitment can be opened in one way only: the committed bytes end in a salt and an index
of fixed lengths, so they tell the value.  Openings are not broadcast, but they need not
be; whoever opens its commitment to two parties in different ways has to find two
different byte strings with the same digest.
-/

namespace Beaver

open List

variable {σ α : Type}

namespace CoinToss

open Player (echo digests Sending Round Verified Broadcasting)

variable {k me n : Nat} {w : Wire α} {f : Nat → Bytes} {o : Nat → α × Bytes} {es : List Event}

/-- What is committed to tells the value. -/
theorem committed_inj {value value' salt salt' : Bytes} (hsalt : salt.length = 32)
    (hsalt' : salt'.length = 32) (h : committed value salt k = committed value' salt' k) :
    value = value' := by
  unfold committed at h
  exact append_inj_left' (append_cancel_right h) (by rw [hsalt, hsalt'])

/-- The salt of an opening has its length. -/
theorem length_salt {m : Bytes} {o : α × Bytes} (h : (w.pair (Wire.bytes 32)).read m = .ok o) :
    o.2.length = 32 := by
  unfold Wire.read Wire.pair at h
  cases hvalue : w.decode m with
  | error e => simp [hvalue, bind, Except.bind, Functor.map, Except.map] at h
  | ok r =>
    obtain ⟨a, rest⟩ := r
    by_cases hlength : (rest.take 32).length = 32
    · simp only [hvalue, Wire.bytes, hlength, bind, Except.bind, if_true, Functor.map,
        Except.map, Except.ok.injEq] at h
      rw [← h]
      exact hlength
    · simp only [hvalue, Wire.bytes, hlength, bind, Except.bind, if_false, Functor.map,
        Except.map, reduceCtorEq] at h

/-- A party that finds all commitments honored has checked each of them. -/
theorem commit_of_honored (h : honored w me ((range n).map f) ((range n).map o) = true)
    (hk : k < n) (hne : k ≠ me) : commit (w.encode (o k).1) (o k).2 k = f k := by
  have hmem : ((f k, o k), k) ∈ (((range n).map f).zip ((range n).map o)).zipIdx := by
    rw [mk_mem_zipIdx_iff_getElem?]
    simp [hk]
  have hcheck := all_eq_true.mp h _ hmem
  simpa [hne] using hcheck

/-- Everything that a party sends to another when it commits to a value and opens it. -/
def script (w : Wire α) (me n : Nat) (x : α) (salt : Bytes) (f : Nat → Bytes) : List Bytes :=
  (commit (w.encode x) salt me :: echo (Wire.bytes 32) n f)
    ++ [(w.pair (Wire.bytes 32)).encode (x, salt)]

/-- The events in the midst of a toss: nothing else has been sent. -/
def Tossing (w : Wire α) (me n : Nat) (x : α) (es : List Event) : Prop :=
  ∃ salt f, salt.length = 32 ∧ ∀ k < n, k ≠ me → sentTo k es <+: script w me n x salt f

/-- The events of a toss that has succeeded, with the commitments `f` and the openings
`o`. -/
structure Opened (w : Wire α) (me n : Nat) (x : α) (f : Nat → Bytes) (o : Nat → α × Bytes)
    (es : List Event) : Prop where
  own : (o me).1 = x
  salt : (o me).2.length = 32
  sent : ∀ k < n, k ≠ me → sentTo k es = script w me n x (o me).2 f
  got : ∀ k < n, k ≠ me → ∃ m ms m', gotFrom k es = (m :: ms) ++ [m'] ∧
    (Wire.bytes 32).read m = .ok (f k) ∧ ms.length = (echo (Wire.bytes 32) n f).length ∧
    (∀ m'' ∈ ms, (Wire.bytes 32).list.read m''
      = .ok (digests (Wire.bytes 32) ((range n).map f))) ∧
    (w.pair (Wire.bytes 32)).read m' = .ok (o k)
  honored : ∀ k < n, k ≠ me → commit (w.encode (o k).1) (o k).2 k = f k

/-- Draws before a toss do not matter. -/
theorem Tossing.drew {x : α} (h : Tossing w me n x es) (bs : Bytes) :
    Tossing w me n x (.drew bs :: es) := by
  simpa only [Tossing, sentTo_drew] using h

theorem Opened.drew {x : α} (h : Opened w me n x f o es) (bs : Bytes) :
    Opened w me n x f o (.drew bs :: es) :=
  { h with
    sent := by simpa only [sentTo_drew] using h.sent
    got := by simpa only [gotFrom_drew] using h.got }

section Committing

variable {x : α} {salt : Bytes} {es' : List Event}

/-- Before the opening nothing but the commitment and the digests is sent. -/
theorem Tossing.of_broadcasting (hsalt : salt.length = 32)
    (h : Broadcasting (Wire.bytes 32) me n (commit (w.encode x) salt me) es) :
    Tossing w me n x es := by
  rcases h with hsending | ⟨f, -, hsent⟩
  · refine ⟨salt, fun _ => [], hsalt, fun k hk hne => ?_⟩
    have hfront := hsending k
    rw [if_pos ⟨mem_range.mpr hk, hne⟩] at hfront
    exact hfront.trans (cons_prefix_cons.mpr ⟨rfl, nil_prefix⟩)
  · exact ⟨salt, f, hsalt, fun k hk hne => (hsent k hk hne).trans (prefix_append _ _)⟩

/-- Then nothing but the opening is. -/
theorem Tossing.of_verified (hsalt : salt.length = 32)
    (h : Verified (Wire.bytes 32) me n (commit (w.encode x) salt me) f es)
    (h' : Sending (w.pair (Wire.bytes 32)) me (range n) (x, salt) es') :
    Tossing w me n x (es ++ es') := by
  refine ⟨salt, f, hsalt, fun k hk hne => ?_⟩
  have hfront := h' k
  rw [if_pos ⟨mem_range.mpr hk, hne⟩] at hfront
  rw [sentTo_append, h.sent k hk hne]
  exact prefix_append_right_inj _ |>.mpr hfront

/-- A round of openings that all honor the commitments. -/
theorem Opened.of_verified (hme : me < n) (hsalt : salt.length = 32)
    (h : Verified (Wire.bytes 32) me n (commit (w.encode x) salt me) f es)
    (h' : Round (w.pair (Wire.bytes 32)) me (range n) (x, salt) o es')
    (hhonored : CoinToss.honored w me ((range n).map f) ((range n).map o) = true) :
    Opened w me n x f o (es ++ es') := by
  have hown : o me = (x, salt) := h'.own (mem_range.mpr hme)
  refine ⟨by rw [hown], by rw [hown, hsalt], ?_, ?_, fun k => commit_of_honored hhonored⟩
  · intro k hk hne
    rw [sentTo_append, h.sent k hk hne, h'.sent k (mem_range.mpr hk) hne, hown]
    rfl
  · intro k hk hne
    obtain ⟨m, ms, hgot, hread, hlength, hdigests⟩ := h.got k hk hne
    obtain ⟨m', hgot', hread'⟩ := h'.got k (mem_range.mpr hk) hne
    refine ⟨m, ms, m', ?_, hread, hlength, hdigests, hread'⟩
    rw [gotFrom_append, hgot, hgot']

end Committing

/-- **What a party sees when it commits and opens.** -/
theorem traces_commitAndOpen (p : Player) (hme : p.me < p.parties) (phase : String) (w : Wire α)
    (x : α) :
    (commitAndOpen p phase w x : Session σ (List α)).Traces (Tossing w p.me p.parties x)
      fun r es => ∀ v, r = .ok v → ∃ f o, v = (range p.parties).map (fun k => (o k).1) ∧
        Opened w p.me p.parties x f o es := by
  refine .draw ⟨replicate 32 0, fun _ => [], by simp, by simp⟩ ?_
  intro salt hsalt
  refine (Player.traces_broadcast p hme _ _ _).andThen
    (fun _ hes => (Tossing.of_broadcasting hsalt hes).drew salt) ?_ (by simp)
  intro commitments es _ hok
  obtain ⟨f, rfl, hverified⟩ := hok commitments rfl
  refine (p.traces_gather _ _ _).andThen
    (fun _ hes => (Tossing.of_verified hsalt hverified hes).drew salt) ?_ (by simp)
  intro openings es' hsending hok'
  obtain ⟨o, rfl, hround⟩ := hok' openings rfl
  have hmid := (Tossing.of_verified hsalt hverified hsending).drew salt
  split
  case isFalse => exact .fail (by simpa using hmid) (by simp)
  case isTrue hhonored =>
    refine .pure (by simpa using hmid) ?_
    intro v hv
    cases hv
    rw [append_nil]
    exact ⟨f, o, by rw [map_map]; rfl,
      (Opened.of_verified hme hsalt hverified hround hhonored).drew salt⟩

section Pairs

variable {i : Nat} {x : α} {es' : List Event} {g : Nat → Bytes}

/-- An opening that comes from an honest party is its own. -/
theorem Opened.honest_opening (h : Opened w i n x f o es) (hk : k < n) (hki : k ≠ i) {y : α}
    {salt : Bytes} (hw : w.Carries y) (hsalt : salt.length = 32)
    (hsent : sentTo i es' <+: script w k n y salt g) (hlink : gotFrom k es <+: sentTo i es') :
    o k = (y, salt) := by
  obtain ⟨m, ms, m', hgot, -, hlength, -, hread⟩ := h.got k hk hki
  have hfront := hlink.trans hsent
  rw [hgot, script] at hfront
  -- as much has been received as can have been sent
  have hsame := hfront.eq_of_length (by simp [hlength, Player.length_echo])
  obtain ⟨-, hlast⟩ := append_inj' hsame rfl
  have hcarries : (w.pair (Wire.bytes 32)).Carries (y, salt) := .pair hw (Wire.carries_bytes hsalt)
  rw [cons.inj hlast |>.1, hcarries.read_encode] at hread
  exact (Except.ok.inj hread).symm

/-- Two parties that have succeeded hold commitments with the same digests. -/
theorem Opened.same_digests {j : Nat} {y : α} {o' : Nat → α × Bytes} (hn : n < 2 ^ 64)
    (htwo : n ≠ 2) (hi : i < n) (hj : j < n) (hij : j ≠ i) (h : Opened w i n x f o es)
    (h' : Opened w j n y g o' es') (hlink : gotFrom j es <+: sentTo i es') :
    ∀ k < n, Digest.hash (g k) = Digest.hash (f k) := by
  obtain ⟨m, ms, m', hgot, -, hlength, hdigests, -⟩ := h.got j hj hij
  have hecho := Player.echo_of_ne htwo (Wire.bytes 32)
  rw [hecho, length_singleton, length_eq_one_iff] at hlength
  obtain ⟨m'', rfl⟩ := hlength
  rw [hgot, h'.sent i hi (Ne.symm hij), script, hecho] at hlink
  simp only [cons_append, nil_append, cons_prefix_cons] at hlink
  obtain ⟨-, rfl, -⟩ := hlink
  exact Player.same_hashes hn (hdigests _ mem_cons_self)

end Pairs

end CoinToss

/-- The byte strings of which honest parties compare digests to find out about party `k`:
the commitments that they have read in its messages, and what these are to commit to. -/
def Scene.hashedFor {β : Type} (s : Scene β) (honest : Finset Nat) (w : Wire α) (k : Nat) :
    Set Bytes :=
  s.readFrom honest (Wire.bytes 32) k ∪
    { b | ∃ o ∈ s.readFrom honest (w.pair (Wire.bytes 32)) k,
      b = CoinToss.committed (w.encode o.1) o.2 k }

namespace CoinToss

/-- **Two tosses that succeed give the same values**, as long as no two byte strings in
question have the same digest. -/
theorem Opened.agree {β : Type} {n : Nat} (hn : n < 2 ^ 64) {honest : Finset Nat}
    (hhonest : ∀ i ∈ honest, i < n) {w : Wire α} (hencode : Function.Injective w.encode)
    {p : Nat → Protocol β} {s : Scene β} (hrun : s.Reaches honest p)
    (hinj : ∀ k < n, k ∉ honest → Set.InjOn Digest.hash (s.hashedFor honest w k))
    (htossing : ∀ k ∈ honest, ∃ x, w.Carries x ∧ Tossing w k n x (s.history k)) {i j : Nat}
    (hi : i ∈ honest) (hj : j ∈ honest) {x y : α} (hx : w.Carries x) (hy : w.Carries y)
    {f g : Nat → Bytes} {o o' : Nat → α × Bytes} (h : Opened w i n x f o (s.history i))
    (h' : Opened w j n y g o' (s.history j)) (hij : j ≠ i) :
    ∀ k < n, (o' k).1 = (o k).1 := by
  intro k hk
  have hin := hhonest i hi
  have hjn := hhonest j hj
  by_cases hki : k = i
  · subst hki
    have hopening := h'.honest_opening hin (Ne.symm hij) hx h.salt
      (by rw [h.sent j hjn hij]) (hrun.taken_of_sent hi j)
    rw [hopening, h.own]
  · by_cases hkj : k = j
    · subst hkj
      have hopening := h.honest_opening hjn hij hy h'.salt
        (by rw [h'.sent i hin (Ne.symm hij)]) (hrun.taken_of_sent hj i)
      rw [hopening, h'.own]
    · by_cases hhk : k ∈ honest
      · obtain ⟨z, hz, salt, c, hsalt, hsent⟩ := htossing k hhk
        have hopening := h.honest_opening hk hki hz hsalt (hsent i hin (Ne.symm hki))
          (hrun.taken_of_sent hhk i)
        have hopening' := h'.honest_opening hk hkj hz hsalt (hsent j hjn (Ne.symm hkj))
          (hrun.taken_of_sent hhk j)
        rw [hopening, hopening']
      · have htwo : n ≠ 2 := by omega
        obtain ⟨m, ms, m', hgot, hread, -, -, hread'⟩ := h.got k hk hki
        obtain ⟨l, ls, l', hgot', hcommitment, -, -, hopening⟩ := h'.got k hk hkj
        have hf : f k ∈ s.hashedFor honest w k :=
          Or.inl ⟨i, hi, m, by rw [Scene.taken, hgot]; simp, hread⟩
        have hg : g k ∈ s.hashedFor honest w k :=
          Or.inl ⟨j, hj, l, by rw [Scene.taken, hgot']; simp, hcommitment⟩
        have ho : committed (w.encode (o k).1) (o k).2 k ∈ s.hashedFor honest w k :=
          Or.inr ⟨o k, ⟨i, hi, m', by rw [Scene.taken, hgot]; simp, hread'⟩, rfl⟩
        have ho' : committed (w.encode (o' k).1) (o' k).2 k ∈ s.hashedFor honest w k :=
          Or.inr ⟨o' k, ⟨j, hj, l', by rw [Scene.taken, hgot']; simp, hopening⟩, rfl⟩
        have hcommitments : g k = f k := hinj k hk hhk hg hf
          (h.same_digests hn htwo hin hjn hij h' (hrun.taken_of_sent hj i) k hk)
        have hhashes : commit (w.encode (o' k).1) (o' k).2 k
            = commit (w.encode (o k).1) (o k).2 k := by
          rw [h'.honored k hk hkj, h.honored k hk hki, hcommitments]
        have hcommitted := hinj k hk hhk ho' ho hhashes
        exact hencode (committed_inj (length_salt hopening) (length_salt hread') hcommitted)

/-- What a party sees when it tosses coins with all others. -/
theorem traces_shared (p : Player) (hme : p.me < p.parties) :
    (shared p : Session σ CoinStream).Traces
      (fun es => ∃ seed, (Wire.bytes 32).Carries seed ∧
        Tossing (Wire.bytes 32) p.me p.parties seed es)
      fun r es => ∀ c, r = .ok c → ∃ seed f o, (Wire.bytes 32).Carries seed ∧
        c = CoinStream.ofSeed (join ((range p.parties).map fun k => (o k).1)) ∧
        Opened (Wire.bytes 32) p.me p.parties seed f o es := by
  refine .draw ?_ ?_
  · exact ⟨replicate 32 0, Wire.carries_bytes (by simp), replicate 32 0, fun _ => [],
      by simp, by simp⟩
  intro seed hseed
  have hcarries : (Wire.bytes 32).Carries seed := Wire.carries_bytes hseed
  refine (traces_commitAndOpen p hme "coin toss" (Wire.bytes 32) seed).andThen
    (fun es hes => ⟨seed, hcarries, hes.drew seed⟩) ?_ (by simp)
  intro seeds es htossing hok
  obtain ⟨f, o, rfl, hopened⟩ := hok seeds rfl
  refine .pure ⟨seed, hcarries, by simpa using htossing.drew seed⟩ ?_
  intro c hc
  cases hc
  exact ⟨seed, f, o, hcarries, rfl, by simpa using hopened.drew seed⟩

section Run

variable {n : Nat} {honest : Finset Nat}
variable {t : Nat → σ} {i j : Nat} {t₁ t₂ : σ} {s : Scene (Except Failure CoinStream × σ)}

/-- Everybody who has succeeded holds the same values. -/
theorem commitAndOpen_agree (hn : n < 2 ^ 64) (hhonest : ∀ i ∈ honest, i < n) {phase : String}
    {w : Wire α} (hencode : Function.Injective w.encode) {x : Nat → α}
    (hw : ∀ i ∈ honest, w.Carries (x i)) {s : Scene (Except Failure (List α) × σ)}
    (hrun : s.Reaches honest fun i => (commitAndOpen ⟨i, n⟩ phase w (x i)).start (t i))
    (hinj : ∀ k < n, k ∉ honest → Set.InjOn Digest.hash (s.hashedFor honest w k)) (hi : i ∈ honest)
    (hj : j ∈ honest) {v u : List α} (hv : s.program i = .done (.ok v, t₁))
    (hu : s.program j = .done (.ok u, t₂)) :
    u = v ∧ v.length = n ∧ ∀ k ∈ honest, v[k]? = some (x k) := by
  have htraces : ∀ k ∈ honest, _ := fun k hk =>
    hrun.traces (traces_commitAndOpen ⟨k, n⟩ (hhonest k hk) phase w (x k) (t k))
  obtain ⟨f, o, rfl, hopened⟩ := (htraces i hi).2 _ hv v rfl
  refine ⟨?_, by simp, ?_⟩
  · by_cases hij : j = i
    · subst hij
      have hsame := Protocol.done.inj (hu.symm.trans hv)
      exact Except.ok.inj (Prod.ext_iff.mp hsame).1
    · obtain ⟨g, o', rfl, hopened'⟩ := (htraces j hj).2 _ hu u rfl
      have hagree := hopened.agree hn hhonest hencode hrun hinj
        (fun k hk => ⟨x k, hw k hk, (htraces k hk).1⟩) hi hj (hw i hi) (hw j hj) hopened' hij
      exact map_congr_left fun k hk => hagree k (mem_range.mp hk)
  · intro k hk
    have hvalue : (o k).1 = x k := by
      by_cases hki : k = i
      · rw [hki, hopened.own]
      · obtain ⟨salt, c, hsalt, hsent⟩ := (htraces k hk).1
        have hopening := hopened.honest_opening (hhonest k hk) hki (hw k hk) hsalt
          (hsent i (hhonest i hi) (Ne.symm hki)) (hrun.taken_of_sent hk i)
        rw [hopening]
    simp [hhonest k hk, hvalue]

/-- Everybody who has succeeded has tossed the same coins. -/
theorem shared_agree (hn : n < 2 ^ 64) (hhonest : ∀ i ∈ honest, i < n)
    (hrun : s.Reaches honest fun i => (shared ⟨i, n⟩).start (t i))
    (hinj : ∀ k < n, k ∉ honest → Set.InjOn Digest.hash (s.hashedFor honest (Wire.bytes 32) k))
    (hi : i ∈ honest) (hj : j ∈ honest) {c d : CoinStream} (hc : s.program i = .done (.ok c, t₁))
    (hd : s.program j = .done (.ok d, t₂)) : d = c := by
  have htraces : ∀ k ∈ honest, _ := fun k hk =>
    hrun.traces (traces_shared ⟨k, n⟩ (hhonest k hk) (t k))
  by_cases hij : j = i
  · subst hij
    have hsame := Protocol.done.inj (hd.symm.trans hc)
    exact Except.ok.inj (Prod.ext_iff.mp hsame).1
  · obtain ⟨seed, f, o, hseed, rfl, hopened⟩ := (htraces i hi).2 _ hc c rfl
    obtain ⟨seed', g, o', hseed', rfl, hopened'⟩ := (htraces j hj).2 _ hd d rfl
    have hagree := hopened.agree hn hhonest Function.injective_id hrun hinj
      (fun k hk => (htraces k hk).1) hi hj hseed hseed' hopened' hij
    congr 2
    exact map_congr_left fun k hk => hagree k (mem_range.mp hk)

/-- Two honest ends of a link always toss the same coins. -/
theorem pairwise_agree {p : Nat → Protocol (Except Failure CoinStream × σ)}
    (hrun : s.Reaches honest p) (hi : i ∈ honest) (hj : j ∈ honest) {l l' : LinkEnd}
    (hl : LinkEnd.Joined i j l l') (hij : i ≠ j) {t t' : σ} (hp : p i = (pairwise l).start t)
    (hq : p j = (pairwise l').start t') :
    ∃ c, (∀ r, s.program i = .done r → r = (.ok c, t)) ∧
      ∀ r, s.program j = .done r → r = (.ok c, t') := by
  have hmeets : ∀ u v, Meets i j (fun a b _ _ => ∃ c, a = (.ok c, t) ∧ b = (.ok c, t'))
      (p i) (p j) [] [] u v := by
    intro u v
    rw [hp, hq, ← bind_pure (pairwise l), ← bind_pure (pairwise l')]
    exact Meets.pairwise hl (.done ⟨_, rfl, rfl⟩)
  have hmeeting := hrun.meeting hij hi hj hmeets
  let zeros : Tape := ⟨fun _ n => replicate n 0, fun _ _ => length_replicate⟩
  obtain ⟨a, b, -, -, ⟨c, rfl, rfl⟩, ha, hb⟩ := (hmeeting.meets zeros zeros).exists_results
  exact ⟨c, fun r hr => (ha r hr).symm, fun r hr => (hb r hr).symm⟩

end Run

/-- **Coin tosses agree.**  Whatever corrupted parties send, two honest parties at which
committing and opening succeeds hold the same values, those of the honest parties being
their own; two honest parties that have tossed coins with all others hold the same
stream; and of two honest ends of a link that toss coins, any that is done has succeeded,
with the same stream as the other.  No two different byte strings that honest parties
compare by their digests to find out about the same corrupted party may have the same
digest. -/
theorem toss_agreement {n : Nat} (hn : n < 2 ^ 64) {honest : Finset Nat}
    (hhonest : ∀ i ∈ honest, i < n) :
    (∀ (α : Type) (w : Wire α) (x : Nat → α) (phase : String) (t : Nat → σ)
      (s : Scene (Except Failure (List α) × σ)), Function.Injective w.encode →
      (∀ i ∈ honest, w.Carries (x i)) →
      s.Reaches honest (fun i => (commitAndOpen ⟨i, n⟩ phase w (x i)).start (t i)) →
      (∀ k < n, k ∉ honest → Set.InjOn Digest.hash (s.hashedFor honest w k)) →
      ∀ i ∈ honest, ∀ j ∈ honest, ∀ v u t₁ t₂, s.program i = .done (.ok v, t₁) →
        s.program j = .done (.ok u, t₂) →
        u = v ∧ v.length = n ∧ ∀ k ∈ honest, v[k]? = some (x k)) ∧
    (∀ (t : Nat → σ) (s : Scene (Except Failure CoinStream × σ)),
      s.Reaches honest (fun i => (shared ⟨i, n⟩).start (t i)) →
      (∀ k < n, k ∉ honest →
        Set.InjOn Digest.hash (s.hashedFor honest (Wire.bytes 32) k)) →
      ∀ i ∈ honest, ∀ j ∈ honest, ∀ c d t₁ t₂, s.program i = .done (.ok c, t₁) →
        s.program j = .done (.ok d, t₂) → d = c) ∧
    ∀ (p : Nat → Protocol (Except Failure CoinStream × σ))
      (s : Scene (Except Failure CoinStream × σ)) (i j : Nat) (t t' : σ), s.Reaches honest p →
      i ∈ honest → j ∈ honest → i ≠ j → p i = (pairwise (Player.link ⟨i, n⟩ j)).start t →
      p j = (pairwise (Player.link ⟨j, n⟩ i)).start t' →
      ∃ c, (∀ r, s.program i = .done r → r = (.ok c, t)) ∧
        ∀ r, s.program j = .done r → r = (.ok c, t') := by
  refine ⟨?_, ?_, ?_⟩
  · intro α w x phase t s hencode hw hrun hinj i hi j hj v u t₁ t₂ hv hu
    exact commitAndOpen_agree hn hhonest hencode hw hrun hinj hi hj hv hu
  · intro t s hrun hinj i hi j hj c d t₁ t₂ hc hd
    exact shared_agree hn hhonest hrun hinj hi hj hc hd
  · intro p s i j t t' hrun hi hj hij hp hq
    have hl : LinkEnd.Joined i j (Player.link ⟨i, n⟩ j) (Player.link ⟨j, n⟩ i) :=
      ⟨rfl, rfl, rfl, rfl, hij⟩
    exact pairwise_agree hrun hi hj hl hij hp hq

section Sample

open Player (sampleLink sampleRound)

/-- The seed of party `k`. -/
def sampleSeed (k : Nat) : Bytes :=
  replicate 32 (UInt8.ofNat k)

/-- The salt of party `k`. -/
def sampleSalt (k : Nat) : Bytes :=
  replicate 32 (UInt8.ofNat (k + 10))

/-- The commitment of party `k`. -/
def sampleCommitment (k : Nat) : Bytes :=
  commit (sampleSeed k) (sampleSalt k) k

/-- The opening of party `k`. -/
def sampleOpening (k : Nat) : Bytes :=
  sampleSeed k ++ sampleSalt k

/-- The digests of the commitments. -/
def sampleDigests : Bytes :=
  (Wire.bytes 32).list.encode
    (Player.digests (Wire.bytes 32) [sampleCommitment 0, sampleCommitment 1, sampleCommitment 2])

/-- A toss of three parties, of which party 2 is corrupted and opens its commitment in two
messages that differ after the opening. -/
def sampleToss : List (Nat × Event) :=
  [(0, .drew (sampleSalt 0)), (1, .drew (sampleSalt 1))]
    ++ sampleRound (sampleCommitment 0) (sampleCommitment 1) (sampleCommitment 2)
      (some (sampleCommitment 2))
    ++ sampleRound sampleDigests sampleDigests sampleDigests (some sampleDigests)
    ++ sampleRound (sampleOpening 0) (sampleOpening 1) (sampleOpening 2)
      (some (sampleOpening 2 ++ [9]))

/-- The parties draw their seeds. -/
def sampleDraws : List (Nat × Event) :=
  [(0, .drew (sampleSeed 0)), (1, .drew (sampleSeed 1))]

/-- What can have come from party 2 in a sample toss. -/
def sampleMessages : List Bytes :=
  [sampleCommitment 2, sampleDigests, sampleOpening 2, sampleOpening 2 ++ [9]]

/-- Whether the program of party `i` has succeeded. -/
def succeeded {β : Type} (s : Scene (Except Failure β × Unit)) (i : Nat) : Bool :=
  match s.program i with
  | .done (.ok _, _) => true
  | _ => false

/-- Whether a sample toss has led where it should. -/
def sampleCheck {β : Type} (s : Scene (Except Failure β × Unit)) : Bool :=
  [0, 1].all fun i => succeeded s i && (s.taken 2 i).all (sampleMessages.contains ·)

variable {β : Type} {s : Scene (Except Failure β × Unit)}

theorem exists_of_succeeded {i : Nat} (h : succeeded s i = true) :
    ∃ b, s.program i = .done (.ok b, ()) := by
  unfold succeeded at h
  split at h
  · exact ⟨_, by assumption⟩
  · cases h

/-- What is hashed of these messages. -/
def sampleHashed : List Bytes :=
  sampleMessages.filterMap (fun m => ((Wire.bytes 32).read m).toOption)
    ++ sampleMessages.filterMap fun m =>
      (((Wire.bytes 32).pair (Wire.bytes 32)).read m).toOption.map fun o => committed o.1 o.2 2

/-- A sample toss that has led where it should, with no two byte strings of the same
digest. -/
theorem of_sampleCheck (h : sampleCheck s = true) :
    (∃ a b, s.program 0 = .done (.ok a, ()) ∧ s.program 1 = .done (.ok b, ())) ∧
      ∀ k < 3, k ∉ ({0, 1} : Finset Nat) →
        Set.InjOn Digest.hash (s.hashedFor {0, 1} (Wire.bytes 32) k) := by
  have hboth : ∀ i ∈ [0, 1], succeeded s i = true ∧ ∀ m ∈ s.taken 2 i, m ∈ sampleMessages := by
    intro i hi
    obtain ⟨hok, hmessages⟩ := Bool.and_eq_true_iff.mp (all_eq_true.mp h i hi)
    exact ⟨hok, fun m hm => contains_iff_mem.mp (all_eq_true.mp hmessages m hm)⟩
  obtain ⟨a, ha⟩ := exists_of_succeeded (hboth 0 (by decide)).1
  obtain ⟨b, hb⟩ := exists_of_succeeded (hboth 1 (by decide)).1
  refine ⟨⟨a, b, ha, hb⟩, ?_⟩
  have hdistinct : ∀ a ∈ sampleHashed, ∀ b ∈ sampleHashed,
      Digest.hash a = Digest.hash b → a = b := by
    decide +kernel
  intro k hk hcorrupted
  obtain rfl : k = 2 := by
    simp only [Finset.mem_insert, Finset.mem_singleton, not_or] at hcorrupted
    omega
  have hlisted : ∀ b ∈ s.hashedFor {0, 1} (Wire.bytes 32) 2, b ∈ sampleHashed := by
    intro b hb
    rcases hb with ⟨j, hj, m, hm, hread⟩ | ⟨o, ⟨j, hj, m, hm, hread⟩, rfl⟩
    all_goals have hmessage := (hboth j (by simpa using hj)).2 m hm
    · exact mem_append_left _ (mem_filterMap.mpr ⟨m, hmessage, by rw [hread]; rfl⟩)
    · exact mem_append_right _ (mem_filterMap.mpr ⟨m, hmessage, by rw [hread]; rfl⟩)
  intro a ha b hb hsame
  exact hdistinct a (hlisted a ha) b (hlisted b hb) hsame

def sampleCommits (i : Nat) : Protocol (Except Failure (List Bytes) × Unit) :=
  (commitAndOpen ⟨i, 3⟩ "sample" (Wire.bytes 32) (sampleSeed i)).start ()

def sampleShared (i : Nat) : Protocol (Except Failure CoinStream × Unit) :=
  (shared ⟨i, 3⟩).start ()

def samplePairwise (i : Nat) : Protocol (Except Failure CoinStream × Unit) :=
  (pairwise (Player.link ⟨i, 3⟩ (1 - i))).start ()

/-- There are tosses in which both honest parties succeed, with the same values and the
same streams. -/
theorem toss_agreement_sample :
    (∃ s : Scene (Except Failure (List Bytes) × Unit), s.Reaches {0, 1} sampleCommits ∧
      ∃ v, s.program 0 = .done (.ok v, ()) ∧ s.program 1 = .done (.ok v, ()) ∧
        v[1]? = some (sampleSeed 1)) ∧
    (∃ s : Scene (Except Failure CoinStream × Unit), s.Reaches {0, 1} sampleShared ∧
      ∃ c, s.program 0 = .done (.ok c, ()) ∧ s.program 1 = .done (.ok c, ())) ∧
    ∃ s : Scene (Except Failure CoinStream × Unit), s.Reaches {0, 1} samplePairwise ∧
      ∃ c, s.program 0 = .done (.ok c, ()) ∧ s.program 1 = .done (.ok c, ()) := by
  have hcheck : (Scene.run? {0, 1} ⟨sampleCommits, fun _ => []⟩ sampleToss).any sampleCheck
      = true := by
    decide +kernel
  have hcheck' : (Scene.run? {0, 1} ⟨sampleShared, fun _ => []⟩ (sampleDraws ++ sampleToss)).any
      sampleCheck = true := by
    decide +kernel
  have hcheck'' : (Scene.run? {0, 1} ⟨samplePairwise, fun _ => []⟩ (sampleDraws
      ++ sampleToss.take 2 ++ sampleLink (sampleCommitment 0) (sampleCommitment 1)
      ++ sampleLink (sampleOpening 0) (sampleOpening 1))).any sampleCheck = true := by
    decide +kernel
  obtain ⟨hcommits, hshared, hpairwise⟩ := @toss_agreement Unit 3 (by decide) {0, 1} (by decide)
  refine ⟨?_, ?_, ?_⟩
  · obtain ⟨s, hrun, hs⟩ := Scene.exists_of_run? hcheck
    obtain ⟨⟨v, u, hv, hu⟩, hinj⟩ := of_sampleCheck hs
    obtain ⟨rfl, -, hvalues⟩ := hcommits Bytes (Wire.bytes 32) sampleSeed "sample" (fun _ => ()) s
      Function.injective_id (fun i _ => Wire.carries_bytes (by simp [sampleSeed])) hrun hinj
      0 (by decide) 1 (by decide) v u () () hv hu
    exact ⟨s, hrun, u, hv, hu, hvalues 1 (by decide)⟩
  · obtain ⟨s, hrun, hs⟩ := Scene.exists_of_run? hcheck'
    obtain ⟨⟨c, d, hc, hd⟩, hinj⟩ := of_sampleCheck hs
    obtain rfl := hshared (fun _ => ()) s hrun hinj 0 (by decide) 1 (by decide) c d () () hc hd
    exact ⟨s, hrun, d, hc, hd⟩
  · obtain ⟨s, hrun, hs⟩ := Scene.exists_of_run? hcheck''
    obtain ⟨⟨c, d, hc, hd⟩, -⟩ := of_sampleCheck hs
    obtain ⟨e, he, he'⟩ := hpairwise samplePairwise s 0 1 () () hrun (by decide) (by decide)
      (by decide) rfl rfl
    exact ⟨s, hrun, e, by rw [hc, he _ hc], by rw [hd, he' _ hd]⟩

end Sample

end CoinToss

end Beaver
