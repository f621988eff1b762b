import Mathlib
import Beaver.Generator.Request
import Beaver.Proofs.Generator.Data

/-!
# Requests of all parties

Every request for data leaves the generators of all parties prepared for the requests that
follow (`Working.together_perform`), so honest parties can make any requests one after the
other over a network, and what they get is right (`onNetwork_right`).
-/

namespace Beaver

open List
open ShareRing

section Right

variable {τ μ : Type} [ShareRing τ] [ShareRing μ] [Lift τ μ]

/-- The shares of the product add up to the product of the factors. -/
def PlainTriple.Right (n : Nat) (t : Nat → PlainTriple τ) : Prop :=
  total n (fun i => (t i).a) * total n (fun i => (t i).b) = total n fun i => (t i).c

/-- The shares of the product add up to the product of the factors, and all tags are right. -/
structure Triple.Right (n : Nat) (key : Nat → μ) (t : Nat → Triple τ μ) : Prop where
  a : Authentic n key fun i => (t i).a
  b : Authentic n key fun i => (t i).b
  c : Authentic n key fun i => (t i).c
  product : sharedValue n (fun i => (t i).a) * sharedValue n (fun i => (t i).b)
    = sharedValue n fun i => (t i).c

/-- The second shares add up to the square of the first ones, and all tags are right. -/
structure RightSquare (n : Nat) (key : Nat → μ) (p : Nat → Share τ μ × Share τ μ) : Prop where
  root : Authentic n key fun i => (p i).1
  square : Authentic n key fun i => (p i).2
  product : sharedValue n (fun i => (p i).1) * sharedValue n (fun i => (p i).1)
    = sharedValue n fun i => (p i).2

/-- The shares add up to what the owner has in the clear, the others have nothing but zero, and
the tags are right. -/
structure InputMask.Right (n : Nat) (key : Nat → μ) (owner : Nat) (m : Nat → InputMask τ μ) :
    Prop where
  share : Authentic n key fun i => (m i).share
  clear : sharedValue n (fun i => (m i).share) = (m owner).clear
  others : ∀ i < n, i ≠ owner → (m i).clear = 0 ∧ (m i).share.value = 0

/-- Tags for the values of one party. -/
theorem InputMask.right_of_completes [LawfulShareRing τ] [LawfulShareRing μ] {n owner : Nat}
    (howner : owner < n) (hlift : (Lift.lift (0 : τ) : μ) = 0) {key c : Nat → μ} {x : Nat → τ}
    (hx : ∀ i, i ≠ owner → x i = 0) (h : Completes n (fun i j => key j * Lift.lift (x i)) c) :
    Right n key owner fun i =>
      ⟨⟨x i, if owner = i then key i * Lift.lift (x i) + c i else c i⟩, x i⟩ where
  share := by
    have htags : ∀ i, (if owner = i then key i * Lift.lift (x i) + c i else c i)
        = key i * Lift.lift (x i) + c i := by
      intro i
      by_cases hi : owner = i
      · rw [if_pos hi]
      · rw [if_neg hi, hx i (Ne.symm hi), hlift, mul_zero, zero_add]
    simp only [htags]
    exact h.authentic
  clear := total_eq_of_owner howner hx
  others i _ hi := ⟨hx i hi, hx i hi⟩

end Right

theorem Config.of_validate {c : Config} (h : c.validate = .ok ()) :
    2 ≤ c.parties ∧ 0 < c.batchSize := by
  rw [validate] at h
  simp only [bind, Except.bind, throw, throwThe, MonadExceptOf.throw] at h
  split_ifs at h with hparties _ _ hbatch
  omega

namespace Generator

section Steps

variable {v r : RingName} [Lift v.Carrier r.Carrier] {n : Nat} {c : Config}
variable {keys : Option (Nat → r.Carrier)} {key : Nat → r.Carrier} {rest : Nat → List Nat}
variable {g : Nat → Generator v.Carrier r.Carrier} {tape : Nat → Tape} {size : Nat}

/-- The masks of a party with these values. -/
def tagMasks {τ μ : Type} [ShareRing τ] [ShareRing μ] [Lift τ μ] (owner me batchSize : Nat)
    (key : μ) (values : List τ) : Session (Generator τ μ) (List (InputMask τ μ)) := do
  let tags ← crossAll pickTags ((batches batchSize values).map (.input owner))
  pure (zipWith (fun x tag =>
    ⟨⟨x, if owner = me then key * Lift.lift x + tag else tag⟩, x⟩) values tags)

variable (hB : 0 < c.batchSize) (hvalues : size * bytes v.Carrier < memoryLimit)
include hB hvalues

/-- **Triples without tags.** -/
theorem Prepared.together_plainTriples (h : Prepared n c keys rest g)
    (hproducts : ProductsFit v.Carrier c.batchSize size) :
    Together n (fun i => (plainTriples size).start (g i)) tape
      (Everyone fun z g' => Holds size (PlainTriple.Right n) z ∧ Prepared n c keys rest g') := by
  refine Together.after (Gives.room hvalues g tape) ?_
  refine Together.andThen (Together.drawElements size g tape) ?_
  rintro _ g tape ⟨⟨as, rfl, has⟩, rfl⟩
  refine Together.andThen (Together.drawElements size g tape) ?_
  rintro _ g tape ⟨⟨bs, rfl, hbs⟩, rfl⟩
  obtain ⟨pairs, rfl, rfl⟩ := exists_pairs (has.trans hbs.symm)
  rw [length_map] at has
  simp only [map_map, Function.comp_def]
  subst has
  refine Together.andThen (h.together_products hB hproducts) ?_
  rintro z g tape ⟨hz, hprepared⟩
  have hright : Held (fun _ => PlainTriple.Right n) pairs fun i => zipWith
      (fun a (b, c) => PlainTriple.mk a b c) (pairs.map (·.1 i)) ((pairs.map (·.2 i)).zip (z i)) := by
    refine .zipThree PlainTriple.mk (.self Prod.fst pairs) (.self Prod.snd pairs) hz ?_
    rintro p _ _ c rfl rfl hc
    exact hc
  exact Together.pure ⟨hright.holds fun _ _ _ ht => ht, hprepared⟩

/-- **Triples.** -/
theorem Prepared.together_triples
    (h : Prepared n c (some key) (fun i => batchLengths c.batchSize (3 * size) ++ rest i) g)
    (hproducts : ProductsFit v.Carrier c.batchSize size)
    (htags : TagsFit r.Carrier c.batchSize (3 * size)) :
    Together n (fun i => (triples size).start (g i)) tape
      (Everyone fun z g' => Holds size (Triple.Right n key) z ∧ Prepared n c (some key) rest g') := by
  refine Together.andThen (h.together_plainTriples hB hvalues hproducts) ?_
  rintro _ g tape ⟨⟨ts, rfl, rfl, hts⟩, hprepared⟩
  let xs := ts.map (fun t i => (t i).a) ++ (ts.map (fun t i => (t i).b) ++ ts.map fun t i => (t i).c)
  have hxs : xs.length = 3 * ts.length := by
    simp only [xs, length_append, length_map]
    omega
  have hvalues : ∀ i, (ts.map (· i)).map (·.a) ++ (ts.map (· i)).map (·.b) ++ (ts.map (· i)).map (·.c)
      = xs.map (· i) := by
    intro i
    simp only [xs, map_append, map_map, append_assoc]
    rfl
  rw [← hxs] at hprepared htags
  simp only [hvalues]
  refine Together.andThen (hprepared.together_authenticate hB htags) ?_
  rintro shares g tape ⟨hshares, hprepared⟩
  obtain ⟨ha, hrest⟩ := hshares.of_append
  obtain ⟨hb, hc⟩ := hrest.of_append
  simp only [length_map] at ha hb hc
  have hright : Held (fun t y => PlainTriple.Right n t → Triple.Right n key y) ts fun i => zipWith
      (fun a (b, c) => Triple.mk a b c) ((shares i).take ts.length)
      ((((shares i).drop ts.length).take ts.length).zip (((shares i).drop ts.length).drop ts.length)) := by
    refine .zipThree Triple.mk ha.of_map hb.of_map hc.of_map fun t a b c ha hb hc ht => ?_
    refine ⟨ha.authentic, hb.authentic, hc.authentic, ?_⟩
    rw [ha.sharedValue_eq, hb.sharedValue_eq, hc.sharedValue_eq]
    exact ht
  simp only [splitAt_eq]
  exact Together.pure ⟨hright.holds fun t ht _ hy => hy (hts t ht), hprepared⟩

/-- **Values with their squares.** -/
theorem Prepared.together_squares
    (h : Prepared n c (some key) (fun i => batchLengths c.batchSize (2 * size) ++ rest i) g)
    (hproducts : ProductsFit v.Carrier c.batchSize size)
    (htags : TagsFit r.Carrier c.batchSize (2 * size)) :
    Together n (fun i => (squares size).start (g i)) tape
      (Everyone fun z g' => Holds size (RightSquare n key) z ∧ Prepared n c (some key) rest g') := by
  refine Together.after (Gives.room hvalues g tape) ?_
  refine Together.andThen (Together.drawElements size g tape) ?_
  rintro _ g tape ⟨⟨as, rfl, rfl⟩, rfl⟩
  refine Together.andThen (h.together_squareShares hB hproducts) ?_
  rintro _ g tape ⟨⟨ss, rfl, hss⟩, hprepared⟩
  have hlength : (as ++ ss).length = 2 * as.length := by
    rw [length_append, ← hss.length_eq]
    omega
  rw [← hlength] at hprepared htags
  simp only [← map_append]
  refine Together.andThen (hprepared.together_authenticate hB htags) ?_
  rintro shares g tape ⟨hshares, hprepared⟩
  obtain ⟨hroots, hsquares⟩ := hshares.of_append
  have hright : Held (fun _ => RightSquare n key) as fun i =>
      ((shares i).take as.length).zip ((shares i).drop as.length) := by
    refine .zipWith (fun _ => Prod.mk) hroots (.comp hss hsquares) ?_
    rintro x a b ha ⟨s, hs, hb⟩
    refine ⟨ha.authentic, hb.authentic, ?_⟩
    rw [ha.sharedValue_eq, hb.sharedValue_eq]
    exact hs
  simp only [splitAt_eq]
  exact Together.pure ⟨hright.holds fun _ _ _ hy => hy, hprepared⟩

/-- **Masks for the inputs of one party.** -/
theorem Prepared.together_inputs {owner : Nat} (howner : owner < n)
    (hlift : (Lift.lift (0 : v.Carrier) : r.Carrier) = 0)
    (h : Prepared n c (some key) (fun i =>
      (if owner = i then batchLengths c.batchSize size else []) ++ rest i) g)
    (htags : TagsFit r.Carrier c.batchSize size) :
    Together n (fun i => (inputs owner size).start (g i)) tape
      (Everyone fun z g' => Holds size (InputMask.Right n key owner) z ∧
        Prepared n c (some key) rest g') := by
  refine Together.after (Gives.get g tape) ?_
  simp only [h.player, if_neg (Nat.not_le_of_lt howner)]
  refine Together.after (h.gives_needKey tape) (Together.after (Gives.room hvalues g tape) ?_)
  have hdraws : ∀ i, ∃ x : List v.Carrier,
      (x.length = size ∧ (i ≠ owner → x = replicate size 0)) ∧
      ∃ s', Alone ((if owner = i then Session.drawElements size
        else pure (replicate size 0) : Session (Generator v.Carrier r.Carrier) _).start (g i))
          (tape i) (.ok x, g i) s' := by
    intro i
    by_cases hi : owner = i
    · obtain ⟨x, hx, s', hdone⟩ :=
        Session.exists_drawElements (α := v.Carrier) size (g i) (tape i)
      exact ⟨x, ⟨hx, fun hne => (hne hi.symm).elim⟩, s', by rwa [if_pos hi]⟩
    · exact ⟨_, ⟨length_replicate, fun _ => rfl⟩, tape i, by rw [if_neg hi]; exact .done⟩
  refine Together.congr (Together.andThen (f := fun i =>
    tagMasks owner i (g i).batchSize (key i)) (Together.each hdraws) ?_) ?_ fun _ _ => rfl
  · rintro values g tape ⟨hvalues, rfl⟩
    obtain ⟨xs, rfl, rfl⟩ := exists_data fun i => (hvalues i).1
    have hxs : ∀ x ∈ xs, ∀ i, i ≠ owner → x i = 0 := by
      intro x hx i hi
      have hzeros : xs.map (· i) = replicate xs.length 0 := (hvalues i).2 hi
      have hmem : x i ∈ xs.map (· i) := mem_map_of_mem hx
      rw [hzeros] at hmem
      exact eq_of_mem_replicate hmem
    simp only [h.batchSize]
    refine Together.andThen (h.together_inputTags hB hlift hxs htags) ?_
    rintro tags g tape ⟨htags, hprepared⟩
    have hright : Held (fun _ => InputMask.Right n key owner) xs fun i => zipWith (fun x tag =>
        InputMask.mk ⟨x, if owner = i then key i * Lift.lift x + tag else tag⟩ x)
        (xs.map (· i)) (tags i) := by
      refine .zipWith (fun i x tag => InputMask.mk
        ⟨x, if owner = i then key i * Lift.lift x + tag else tag⟩ x)
        ((Held.self (fun x => x) xs).imp fun x hx a ha => And.intro ha (hxs x hx)) htags ?_
      rintro x _ c ⟨rfl, hzero⟩ hc
      exact InputMask.right_of_completes howner hlift hzero hc
    exact Together.pure ⟨hright.holds fun _ _ _ hy => hy, hprepared⟩
  · intro i _
    by_cases hi : owner = i
    · rw [if_pos hi, if_pos hi]
      rfl
    · rw [if_neg hi, if_neg hi]
      rfl

end Steps

namespace Request

/-- The lengths of the evaluations for the values of a party. -/
def evaluations {τ : Type} (batchSize party : Nat) : Request τ → List Nat
  | .triples size => batchLengths batchSize (3 * size)
  | .squares size => batchLengths batchSize (2 * size)
  | .inputs owner size => if owner = party then batchLengths batchSize size else []
  | _ => []

variable {τ μ : Type} [ShareRing τ] [ShareRing μ]

/-- A request for data that memory has room for, with the key that it needs. -/
inductive Fits (n batchSize : Nat) (keys : Option (Nat → μ)) : Request τ → Prop
  | plainTriples {size : Nat} (hvalues : size * bytes τ < memoryLimit)
      (hproducts : ProductsFit τ batchSize size) : Fits n batchSize keys (.plainTriples size)
  | triples {size : Nat} (hkeys : keys.isSome = true) (hvalues : size * bytes τ < memoryLimit)
      (hproducts : ProductsFit τ batchSize size) (htags : TagsFit μ batchSize (3 * size)) :
      Fits n batchSize keys (.triples size)
  | squares {size : Nat} (hkeys : keys.isSome = true) (hvalues : size * bytes τ < memoryLimit)
      (hproducts : ProductsFit τ batchSize size) (htags : TagsFit μ batchSize (2 * size)) :
      Fits n batchSize keys (.squares size)
  | inputs {owner size : Nat} (howner : owner < n) (hkeys : keys.isSome = true)
      (hvalues : size * bytes τ < memoryLimit) (htags : TagsFit μ batchSize size) :
      Fits n batchSize keys (.inputs owner size)

/-- What all parties get from a request: as many items as were asked for, with the right
values and tags. -/
inductive Right [Lift τ μ] (n : Nat) (keys : Option (Nat → μ)) :
    Request τ → (Nat → Outcome τ μ) → Prop
  | plainTriples {size : Nat} {z : Nat → List (PlainTriple τ)}
      (h : Holds size (PlainTriple.Right n) z) :
      Right n keys (.plainTriples size) fun i => .plainTriples (z i)
  | triples {size : Nat} {key : Nat → μ} {z : Nat → List (Triple τ μ)} (hkey : keys = some key)
      (h : Holds size (Triple.Right n key) z) : Right n keys (.triples size) fun i => .triples (z i)
  | squares {size : Nat} {key : Nat → μ} {z : Nat → List (Share τ μ × Share τ μ)}
      (hkey : keys = some key) (h : Holds size (RightSquare n key) z) :
      Right n keys (.squares size) fun i => .squares (z i)
  | inputs {owner size : Nat} {key : Nat → μ} {z : Nat → List (InputMask τ μ)}
      (hkey : keys = some key) (h : Holds size (InputMask.Right n key owner) z) :
      Right n keys (.inputs owner size) fun i => .inputs owner (z i)

end Request

section Runs

variable {v r : RingName} [Lift v.Carrier r.Carrier] {n : Nat} {c : Config}
variable {keys : Option (Nat → r.Carrier)} {rest sizes : Nat → List Nat}
variable {run : Nat → Run v.Carrier r.Carrier} {tape : Nat → Tape}

/-- All parties still have their generators. -/
def Working (n : Nat) (c : Config) (keys : Option (Nat → r.Carrier)) (sizes : Nat → List Nat)
    (run : Nat → Run v.Carrier r.Carrier) : Prop :=
  ∃ (g : Nat → Generator v.Carrier r.Carrier) (last : Nat → List (List (Share v.Carrier r.Carrier))),
    Prepared n c keys sizes g ∧ run = fun i => ⟨some (g i), none, last i⟩

omit [Lift v.Carrier r.Carrier] in
theorem start_keep (outcome : Outcome v.Carrier r.Carrier) (run : Run v.Carrier r.Carrier) :
    (Run.keep outcome).start run
      = .done (.ok outcome, { run with last := outcome.items?.getD run.last }) := by
  rw [Run.keep]
  cases outcome.items? <;> rfl

omit [Lift v.Carrier r.Carrier] in
/-- Everybody uses its generator and keeps what it made. -/
theorem Working.together_keep {α : Type} {s : Session (Generator v.Carrier r.Carrier) α}
    {P : (Nat → α) → Prop} {Q : (Nat → Outcome v.Carrier r.Carrier) → Prop}
    (made : α → Outcome v.Carrier r.Carrier) (hQ : ∀ x, P x → Q fun i => made (x i))
    (hs : ∀ g tape, Prepared n c keys sizes g → Together n (fun i => s.start (g i)) tape
      (Everyone fun x g' => P x ∧ Prepared n c keys rest g'))
    (h : Working n c keys sizes run) :
    Together n (fun i => (Run.useGenerator s >>= fun x => Run.keep (made x)).start (run i)) tape
      (Everyone fun o run' => Q o ∧ Working n c keys rest run') := by
  obtain ⟨g, last, hprepared, rfl⟩ := h
  have huse : Together n (fun i => (Run.useGenerator s).start ⟨some (g i), none, last i⟩) tape
      (Everyone fun x run' => P x ∧ ∃ g', Prepared n c keys rest g' ∧
        run' = fun i => ⟨some (g' i), none, last i⟩) := by
    refine Together.bind (hs g tape hprepared) (f := fun i result =>
      .done (result.1, Run.mk (some result.2) none (last i))) ?_
    rintro _ tape ⟨x, g', rfl, hx, hprepared⟩
    exact Together.done ⟨x, _, rfl, hx, g', hprepared, rfl⟩
  refine Together.andThen huse ?_
  rintro x _ tape ⟨hx, g', hprepared, rfl⟩
  simp only [start_keep]
  exact Together.done ⟨fun i => made (x i), _, rfl, hQ x hx, g', _, hprepared, rfl⟩

/-- **One request after the other.** -/
theorem Working.together_perform (hB : 0 < c.batchSize)
    (hlift : (Lift.lift (0 : v.Carrier) : r.Carrier) = 0) {request : Request v.Carrier}
    (hfits : request.Fits n c.batchSize keys)
    (h : Working n c keys (fun i => request.evaluations c.batchSize i ++ rest i) run)
    (check : Check v.Carrier r.Carrier) :
    Together n (fun i => (Run.perform { c with me := i } (keys.map (· i)) check request).start (run i))
      tape (Everyone fun o run' => request.Right n keys o ∧ Working n c keys rest run') := by
  cases hfits with
  | plainTriples hvalues hproducts =>
    exact Working.together_keep .plainTriples (fun _ => .plainTriples) (fun g tape hprepared =>
      hprepared.together_plainTriples hB hvalues hproducts) h
  | triples hkeys hvalues hproducts htags =>
    obtain ⟨key, rfl⟩ := Option.isSome_iff_exists.mp hkeys
    exact Working.together_keep .triples (fun _ => .triples rfl) (fun g tape hprepared =>
      hprepared.together_triples hB hvalues hproducts htags) h
  | squares hkeys hvalues hproducts htags =>
    obtain ⟨key, rfl⟩ := Option.isSome_iff_exists.mp hkeys
    exact Working.together_keep .squares (fun _ => .squares rfl) (fun g tape hprepared =>
      hprepared.together_squares hB hvalues hproducts htags) h
  | @inputs owner size howner hkeys hvalues htags =>
    obtain ⟨key, rfl⟩ := Option.isSome_iff_exists.mp hkeys
    exact Working.together_keep (.inputs owner) (fun _ => .inputs rfl) (fun g tape hprepared =>
      hprepared.together_inputs hB hvalues howner hlift htags) h

/-- **Requests follow each other.** -/
theorem Working.together_requests (hB : 0 < c.batchSize)
    (hlift : (Lift.lift (0 : v.Carrier) : r.Carrier) = 0) {requests : List (Request v.Carrier)}
    (hfits : ∀ q ∈ requests, q.Fits n c.batchSize keys)
    (h : Working n c keys (fun i => requests.flatMap (·.evaluations c.batchSize i)) run)
    (check : Check v.Carrier r.Carrier) :
    Together n (fun i => (requests.mapM
        (Run.perform { c with me := i } (keys.map (· i)) check)).start (run i)) tape
      (Everyone fun outcomes _ => Held (Request.Right n keys) requests outcomes) := by
  induction requests generalizing run tape with
  | nil => exact Together.pure (x := fun _ => []) Held.nil
  | cons q requests ih =>
    simp only [mapM_cons]
    refine Together.andThen (h.together_perform hB hlift (hfits q mem_cons_self) check) ?_
    rintro o run tape ⟨ho, hworking⟩
    refine Together.andThen (ih (fun q h => hfits q (mem_cons_of_mem _ h)) hworking) ?_
    rintro outcomes run tape houtcomes
    exact Together.pure (x := fun i => o i :: outcomes i) (houtcomes.cons ho)

omit [Lift v.Carrier r.Carrier] in
/-- Consistent seeds prepare all parties for evaluations whose digests are distinct. -/
theorem pairsSetUp_ready {seeds : Nat → Nat → Transfer.Seeds} {passive : Bool}
    (hseeds : ∀ i j, i < j → j < n → (seeds i j).Consistent (seeds j i))
    (hpassing : ∀ key ∈ keys, ∀ i < n, ∀ j < n, i ≠ j → Multiplier.Passing passive r.Carrier
      (Multiplier.keyColumns (seeds j i).sent (seeds i j).choices (key j)) (sizes i)) :
    PairsSetUp n (fun i => keys.map (· i)) seeds passive
      fun i j => Multiplier.Ready passive (pairKeys keys i j) (sizes i) (sizes j) := by
  intro i j hij hj σ x y t u
  have hi : i < n := Nat.lt_trans hij hj
  have hfirst : keys.map (· i) = (pairKeys keys i j).map (·.1) := by
    rw [pairKeys, Option.map_map]
    rfl
  have hsecond : keys.map (· j) = (pairKeys keys i j).map (·.2) := by
    rw [pairKeys, Option.map_map]
    rfl
  dsimp only
  rw [hfirst, hsecond]
  refine Multiplier.meets_setup_ready (hseeds i j hij hj) (Player.joined_link (Nat.ne_of_lt hij) n)
    (fun k hk => ?_) x y t u
  obtain ⟨key, hkey, rfl⟩ := Option.mem_map.mp hk
  exact ⟨hpassing key hkey i hi j hj (Nat.ne_of_lt hij),
    hpassing key hkey j hj i hi (Nat.ne_of_gt hij)⟩

end Runs

section Network

variable {τ μ : Type} [ShareRing τ] [ShareRing μ] [Lift τ μ]

/-- Sets up a generator from seeds and fulfils requests. -/
def Run.ofSeeds (p : Player) (c : Config) (key : Option μ) (seeds : List (Nat × Transfer.Seeds))
    (check : Check τ μ) (requests : List (Request τ)) : Session (Run τ μ) (List (Outcome τ μ)) := do
  let generator : Generator τ μ ← Generator.ofSeeds p c key seeds
  set (Run.mk (some generator) none ([] : List (List (Share τ μ))))
  requests.mapM (Run.perform c key check)

/-- What comes of it when parties with these coins make the same requests over a network. -/
def Run.onNetwork (coins : List Coins) (c : Config) (keys : Option (Nat → μ))
    (seeds : Nat → Nat → Transfer.Seeds) (check : Check τ μ) (requests : List (Request τ)) :
    List (Option (Except Failure (List (Outcome τ μ)) × Run τ μ)) :=
  let n := coins.length
  ((Network.ofCoins coins).runOn .honest ((range n).map fun i =>
    (Run.ofSeeds ⟨i, n⟩ { c with me := i } (keys.map (· i)) (seedsOf n i (seeds i)) check
      requests).start ⟨none, none, []⟩)).1

end Network

section Sample

/-- Three parties that trust each other and work in batches of two. -/
def trusting : Config := { parties := 3, batchSize := 2, passive := true }

/-- Two parties that check each other. -/
def wary : Config := { threaded := false }

/-- Shares of a key. -/
def sampleKey (i : Nat) : Word128 := Residue.ofNat (i + 5)

def sampleRequests : List (Request Word64) :=
  [.plainTriples 3, .triples 2, .inputs 2 3, .squares 1, .inputs 0 0]

theorem fits_sampleRequests : ∀ q ∈ sampleRequests, q.Fits 3 2 (some sampleKey) := by
  intro q hq
  simp only [sampleRequests, mem_cons, not_mem_nil, or_false] at hq
  rcases hq with rfl | rfl | rfl | rfl | rfl
  · exact .plainTriples (by decide) (by decide)
  · exact .triples rfl (by decide) (by decide) (by decide)
  · exact .inputs (by decide) rfl (by decide) (by decide)
  · exact .squares rfl (by decide) (by decide) (by decide)
  · exact .inputs (by decide) rfl (by decide) (by decide)

end Sample

end Generator

end Beaver
