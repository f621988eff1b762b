import Mathlib
import Beaver.Proofs.Generator.CrossTerms

/-!
# The data of all parties

All parties make data from shares that each draws on its own.  With the cross terms, the
shares of products add up to the products of the sums (`Prepared.together_products`), and
the shares of tags to the key times the values (`Prepared.together_authenticate`).
-/

namespace Beaver

open List
open ShareRing

section Terms

variable {τ μ : Type} [ShareRing τ] [ShareRing μ] [LawfulShareRing τ] [LawfulShareRing μ] [Lift τ μ]
variable {n : Nat}

omit [ShareRing μ] [LawfulShareRing μ] [Lift τ μ] in
theorem Completes.product {a b c : Nat → τ} (h : Completes n (fun i j => a i * b j) c) :
    total n a * total n b = total n fun i => a i * b i + c i :=
  calc total n a * total n b
    _ = total n fun i => a i * total n b := (total_mul_right ..).symm
    _ = total n fun i => total n fun j => a i * b j :=
        total_congr fun _ _ => (total_mul_left ..).symm
    _ = (total n fun i => a i * b i) + total n c := h.symm
    _ = total n fun i => a i * b i + c i := (total_add ..).symm

omit [ShareRing μ] [LawfulShareRing μ] [Lift τ μ] in
/-- Products of own shares together with the cross terms. -/
theorem Held.products {γ : Type} {a b : γ → Nat → τ} {items : List γ} {cross : Nat → List τ}
    (h : Held (fun p => Completes n fun i j => a p i * b p j) items cross) :
    Held (fun p z => total n (a p) * total n (b p) = total n z) items
      fun i => List.zipWith (· + ·) (List.zipWith (· * ·) (items.map fun p => a p i)
        (items.map fun p => b p i)) (cross i) := by
  have howned : Held (fun p x => x = fun i => a p i * b p i) items
      fun i => List.zipWith (· * ·) (items.map fun p => a p i) (items.map fun p => b p i) :=
    .zipWith (fun _ => (· * ·)) (.self a items) (.self b items) fun _ _ _ ha hb => by rw [ha, hb]
  refine .zipWith (fun _ => (· + ·)) howned h ?_
  rintro p _ c rfl hc
  exact hc.product

variable {x : Nat → τ}

omit [ShareRing τ] [LawfulShareRing τ] in
theorem Completes.authentic {key c : Nat → μ}
    (h : Completes n (fun i j => key j * Lift.lift (x i)) c) :
    Authentic n key fun i => (⟨x i, key i * Lift.lift (x i) + c i⟩ : Share τ μ) :=
  calc (total n fun i => key i * Lift.lift (x i) + c i)
    _ = (total n fun i => key i * Lift.lift (x i)) + total n c := total_add ..
    _ = total n fun i => total n fun j => key j * Lift.lift (x i) := h
    _ = total n fun i => total n key * Lift.lift (x i) :=
        total_congr fun _ _ => total_mul_right ..
    _ = total n key * total n fun i => Lift.lift (x i) := total_mul_left ..

omit [ShareRing μ] [LawfulShareRing μ] [Lift τ μ] in
/-- What only one party has a share of. -/
theorem total_eq_of_owner {owner : Nat} (howner : owner < n) (hx : ∀ i, i ≠ owner → x i = 0) :
    total n x = x owner := by
  induction n with
  | zero => cases howner
  | succ n ih =>
    rw [total_succ]
    rcases Nat.lt_succ_iff_lt_or_eq.mp howner with hlt | rfl
    · rw [ih hlt, hx n (Nat.ne_of_gt hlt), add_zero]
    · rw [total_congr fun i hi => hx i (Nat.ne_of_lt hi), total_zero, zero_add]

end Terms

section Tagged

variable {τ μ : Type} [ShareRing μ] [Lift τ μ]

/-- Shares of these values, with the right tags. -/
structure Tagged (n : Nat) (key : Nat → μ) (x : Nat → τ) (y : Nat → Share τ μ) : Prop where
  value : ∀ i, (y i).value = x i
  authentic : Authentic n key y

theorem Tagged.sharedValue_eq [ShareRing τ] {n : Nat} {key : Nat → μ} {x : Nat → τ}
    {y : Nat → Share τ μ} (h : Tagged n key x y) : sharedValue n y = total n x :=
  total_congr fun i _ => h.value i

end Tagged

section Draws

variable {σ α : Type} [ShareRing α]
variable {n : Nat}

omit [ShareRing α] in
theorem Gives.room {m size : Nat} (h : m * size < memoryLimit) (t : Nat → σ) (tape : Nat → Tape) :
    Gives n (fun i => (Session.room m size : Session σ Unit).start (t i)) tape
      (fun i => (.ok (), t i)) tape := by
  rw [Session.room, room?, if_pos h]
  exact Gives.done _ tape

/-- A party draws the elements that it asks for. -/
theorem Session.exists_drawElements (n : Nat) (t : σ) (s : Tape) :
    ∃ xs : List α, xs.length = n ∧
      ∃ s', Alone ((drawElements n : Session σ (List α)).start t) s (.ok xs, t) s' := by
  induction n generalizing s with
  | zero => exact ⟨[], rfl, s, .done⟩
  | succ n ih =>
    obtain ⟨xs, hxs, s', hrest⟩ := ih s.tail
    refine ⟨ofBlock (Block.ofBytes (s.next 16)) :: xs, congrArg (· + 1) hxs, s', ?_⟩
    have hdraw : (drawElement : Session σ α).start t
        = .draw 16 fun bs => .done (.ok (ofBlock (Block.ofBytes bs)), t) := rfl
    rw [drawElements, start_bind, hdraw]
    refine .draw ?_
    rw [Protocol.done_bind, resume_ok, start_bind]
    exact hrest.bind .done

/-- Every party does something on its own that succeeds and leaves its state alone. -/
theorem Together.each {σ β : Type} {tape : Nat → Tape} {s : Nat → Session σ β} {t : Nat → σ}
    {Q : Nat → β → Prop}
    (h : ∀ i, ∃ x, Q i x ∧ ∃ s', Alone ((s i).start (t i)) (tape i) (.ok x, t i) s') :
    Together n (fun i => (s i).start (t i)) tape
      (Everyone fun x t' => (∀ i, Q i (x i)) ∧ t' = t) := by
  choose x hx tape' hdone using h
  exact Together.alone (fun i _ => hdone i) ⟨x, t, rfl, hx, rfl⟩

/-- Everybody draws shares of fresh data. -/
theorem Together.drawElements (size : Nat) (t : Nat → σ) (tape : Nat → Tape) :
    Together n (fun i => (Session.drawElements size : Session σ (List α)).start (t i)) tape
      (Everyone fun x t' => (∃ data : List (Nat → α), (x = fun i => data.map (· i)) ∧
        data.length = size) ∧ t' = t) :=
  (Together.each (Q := fun _ x => x.length = size) fun i =>
    Session.exists_drawElements size (t i) (tape i)).imp fun _ _ h => ⟨exists_data h.1, h.2⟩

end Draws

section Kinds

variable {γ τ μ α : Type} [ShareRing τ] [ShareRing μ] [Lift τ μ]

/-- Memory has room for jobs of the given length. -/
def Kind.Fits (k : Kind γ τ μ α) (size : Nat) : Prop :=
  ∀ i items, items.length = size → (k.job i items).HasRoom μ

/-- Memory has room for the products of `m` pairs, in batches. -/
def ProductsFit (τ : Type) [ShareRing τ] (batchSize m : Nat) : Prop :=
  ∀ size ∈ batchLengths batchSize m, Transfer.HasRoom (size * bits τ)

/-- Memory has room for the tags of `m` values, in batches. -/
def TagsFit (μ : Type) [ShareRing μ] (batchSize m : Nat) : Prop :=
  ∀ size ∈ batchLengths batchSize m, size * bytes μ < memoryLimit

instance (batchSize m : Nat) : Decidable (ProductsFit τ batchSize m) :=
  inferInstanceAs (Decidable (∀ size ∈ _, _))

instance (batchSize m : Nat) : Decidable (TagsFit μ batchSize m) :=
  inferInstanceAs (Decidable (∀ size ∈ _, _))

variable {size : Nat}

omit [Lift τ μ] in
theorem fits_productKind (h : Transfer.HasRoom (size * bits τ)) : (productKind τ μ).Fits size := by
  rintro i items rfl
  rwa [← length_map (fun p : (Nat → τ) × (Nat → τ) => p.1 i)] at h

omit [Lift τ μ] in
theorem fits_squareKind (h : Transfer.HasRoom (size * bits τ)) : (squareKind τ μ).Fits size := by
  rintro i items rfl
  rwa [← length_map (fun x : Nat → τ => x i)] at h

theorem fits_tagKind (h : size * bytes μ < memoryLimit) (key : Nat → μ) :
    (tagKind τ key).Fits size := by
  rintro i items rfl
  rwa [← length_map (fun x : Nat → τ => x i)] at h

theorem fits_inputKind (h : size * bytes μ < memoryLimit) (owner : Nat) (key : Nat → μ) :
    (inputKind τ owner key).Fits size := by
  rintro i items rfl
  rwa [← length_map (fun x : Nat → τ => x i)] at h

end Kinds

namespace Generator

variable {v r : RingName} [Lift v.Carrier r.Carrier] {n : Nat} {c : Config}
variable {keys : Option (Nat → r.Carrier)} {rest sizes : Nat → List Nat}
variable {g : Nat → Generator v.Carrier r.Carrier} {tape : Nat → Tape}

omit [Lift v.Carrier r.Carrier] in
theorem Prepared.batchSize (h : Prepared n c keys sizes g) (i : Nat) :
    (g i).batchSize = c.batchSize := by
  obtain ⟨m, -, rfl⟩ := h
  rfl

omit [Lift v.Carrier r.Carrier] in
theorem Prepared.player (h : Prepared n c keys sizes g) (i : Nat) : (g i).player = ⟨i, n⟩ := by
  obtain ⟨m, -, rfl⟩ := h
  rfl

variable {key : Nat → r.Carrier} {xs : List (Nat → v.Carrier)}

omit [Lift v.Carrier r.Carrier] in
theorem Prepared.gives_needKey (h : Prepared n c (some key) sizes g) (tape : Nat → Tape) :
    Gives n (fun i => (needKey : Session (Generator v.Carrier r.Carrier) r.Carrier).start (g i)) tape
      (fun i => (.ok (key i), g i)) tape := by
  obtain ⟨m, -, rfl⟩ := h
  exact Gives.done _ tape

/-- **Cross terms, in batches.** -/
theorem Prepared.together_batches {α γ : Type} [ShareRing α] [LawfulShareRing α]
    {k : Kind γ v.Carrier r.Carrier α} (hk : k.Lawful n keys) (hB : 0 < c.batchSize) {items : List γ}
    (h : Prepared n c keys
      (fun i => k.evaluations i (batchLengths c.batchSize items.length) ++ rest i) g)
    (hroom : ∀ size ∈ batchLengths c.batchSize items.length, k.Fits size) :
    Together n (fun i => (crossAll k.pick ((batches c.batchSize items).map (k.job i))).start (g i)) tape
      (Everyone fun x g' => Completed n k items x ∧ Prepared n c keys rest g') := by
  rw [← map_length_batches hB] at h hroom
  refine (h.together_crossAll hk fun part hpart i =>
    hroom _ (mem_map_of_mem hpart) i part rfl).imp fun x g' hx => ?_
  rwa [flatten_batches hB] at hx

/-- **Shares of products.** -/
theorem Prepared.together_products (hB : 0 < c.batchSize) (h : Prepared n c keys rest g)
    {xs : List ((Nat → v.Carrier) × (Nat → v.Carrier))}
    (hroom : ProductsFit v.Carrier c.batchSize xs.length) :
    Together n (fun i => (products (xs.map (·.1 i)) (xs.map (·.2 i))).start (g i)) tape
      (Everyone fun z g' => Held (fun p z => total n p.1 * total n p.2 = total n z) xs z ∧
        Prepared n c keys rest g') := by
  have hjobs : ∀ i, zipWith .triple (batches (g i).batchSize (xs.map (·.1 i)))
      (batches (g i).batchSize (xs.map (·.2 i)))
        = (batches c.batchSize xs).map ((productKind v.Carrier r.Carrier).job i) := by
    intro i
    rw [h.batchSize, batches_map hB, batches_map hB, zipWith_map, zipWith_self]
    rfl
  refine Together.after (Gives.get g tape) ?_
  simp only [hjobs]
  refine Together.andThen (h.together_batches (lawful_productKind n keys) hB
    fun size hsize => fits_productKind (hroom size hsize)) ?_
  rintro cross g' tape' ⟨hcross, hprepared⟩
  exact Together.pure ⟨Held.products (a := Prod.fst) (b := Prod.snd) hcross, hprepared⟩

/-- **Shares of squares.** -/
theorem Prepared.together_squareShares (hB : 0 < c.batchSize) (h : Prepared n c keys rest g)
    (hroom : ProductsFit v.Carrier c.batchSize xs.length) :
    Together n (fun i => (squareShares (xs.map (· i))).start (g i)) tape
      (Everyone fun z g' => Held (fun x z => total n x * total n x = total n z) xs z ∧
        Prepared n c keys rest g') := by
  have hjobs : ∀ i, (batches (g i).batchSize (xs.map (· i))).map .square
      = (batches c.batchSize xs).map ((squareKind v.Carrier r.Carrier).job i) := by
    intro i
    rw [h.batchSize, batches_map hB, map_map]
    rfl
  refine Together.after (Gives.get g tape) ?_
  simp only [hjobs]
  refine Together.andThen (h.together_batches (lawful_squareKind n keys) hB
    fun size hsize => fits_squareKind (hroom size hsize)) ?_
  rintro cross g' tape' ⟨hcross, hprepared⟩
  exact Together.pure ⟨Held.products (a := fun x => x) (b := fun x => x) hcross, hprepared⟩

/-- **Shares with tags.** -/
theorem Prepared.together_authenticate (hB : 0 < c.batchSize)
    (h : Prepared n c (some key) (fun i => batchLengths c.batchSize xs.length ++ rest i) g)
    (hroom : TagsFit r.Carrier c.batchSize xs.length) :
    Together n (fun i => (authenticate (xs.map (· i))).start (g i)) tape
      (Everyone fun z g' => Held (Tagged n key) xs z ∧ Prepared n c (some key) rest g') := by
  have hjobs : ∀ i, (batches (g i).batchSize (xs.map (· i))).map .authenticate
      = (batches c.batchSize xs).map ((tagKind v.Carrier key).job i) := by
    intro i
    rw [h.batchSize, batches_map hB, map_map]
    rfl
  refine Together.after (h.gives_needKey tape) (Together.after (Gives.get g tape) ?_)
  simp only [hjobs]
  refine Together.andThen (h.together_batches (lawful_tagKind n key) hB
    fun size hsize => fits_tagKind (hroom size hsize) key) ?_
  rintro tags g' tape' ⟨htags, hprepared⟩
  refine Together.pure ⟨?_, hprepared⟩
  refine Held.zipWith (fun i x tag => Share.mk x (key i * Lift.lift x + tag)) (.self (fun x => x) xs)
    htags ?_
  rintro x _ cs rfl hcs
  exact ⟨fun _ => rfl, hcs.authentic⟩

/-- **Tags of the values of one party.** -/
theorem Prepared.together_inputTags (hB : 0 < c.batchSize) {owner : Nat}
    (hlift : (Lift.lift (0 : v.Carrier) : r.Carrier) = 0) (hxs : ∀ x ∈ xs, ∀ i, i ≠ owner → x i = 0)
    (h : Prepared n c (some key) (fun i =>
      (if owner = i then batchLengths c.batchSize xs.length else []) ++ rest i) g)
    (hroom : TagsFit r.Carrier c.batchSize xs.length) :
    Together n (fun i => (crossAll pickTags ((batches c.batchSize (xs.map (· i))).map
        (.input owner))).start (g i)) tape
      (Everyone fun tags g' =>
        Held (fun x => Completes n fun i j => key j * Lift.lift (x i)) xs tags ∧
          Prepared n c (some key) rest g') := by
  have hjobs : ∀ i, (batches c.batchSize (xs.map (· i))).map (.input owner)
      = (batches c.batchSize xs).map ((inputKind v.Carrier owner key).job i) := by
    intro i
    rw [batches_map hB, map_map]
    rfl
  have hkind : Prepared n c (some key) (fun i => (inputKind v.Carrier owner key).evaluations i
      (batchLengths c.batchSize xs.length) ++ rest i) g := by
    simpa [Kind.evaluations, inputKind] using h
  simp only [hjobs]
  refine (hkind.together_batches (lawful_inputKind n owner key) hB
    fun size hsize => fits_inputKind (hroom size hsize) owner key).imp fun tags g' htags => ?_
  refine ⟨htags.1.imp fun x hx c hc => ?_, htags.2⟩
  -- the values of the others are zero, so all terms are there
  have hterm : (inputKind v.Carrier owner key).term x = fun i j => key j * Lift.lift (x i) := by
    funext i j
    by_cases hi : i = owner
    · exact if_pos hi
    · rw [hxs x hx i hi, hlift, mul_zero]
      exact if_neg hi
  rwa [hterm] at hc

end Generator

end Beaver
