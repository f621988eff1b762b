import Beaver.Proofs.Endings
import Beaver.Proofs.Faults.Workloads
import Beaver.Proofs.Sacrifice.Verdict

/-!
# What has become of opened values

A call of a check by sacrifice is told as a list of *acts*: coins that were tossed, shares
that were opened, tag checks that have succeeded, batches that were accepted.  The acts of a
call are all it does (`Performed`): each is a run of its own part of the library, they
follow each other, and their events are the events of the call.

Whatever the other parties do, a call that succeeds has checked the tags of all it has opened
(`openings_checked`).
-/

namespace Beaver

open Session (Ends ends_get_bind ends_map ends_pure not_ends_fail)
open List
open ShareRing

namespace MacCheck

variable {φ : Type} [ShareRing φ] {p : Player} {s t : MacCheck φ} {es : List Event}

theorem length_opened (all : List (List φ)) (shares : List (Share φ φ)) :
    (opened all shares : List (φ × φ × φ)).length = shares.length := by
  simp [opened]

/-- The values and the shares of their tags are kept for the next check. -/
theorem map_snd_opened (all : List (List φ)) (shares : List (Share φ φ)) :
    (opened all shares).map (·.2)
      = ((opened all shares).map (·.1)).zip (shares.map (·.tag)) := by
  have hlift : ∀ xs : List φ, xs.map Lift.lift = xs := map_id
  refine ext_getElem (by simp [opened]) ?_
  intro j _ _
  simp [opened, hlift]

/-- What a successful opening adds to the next check. -/
theorem ends_openShares {phase : String} {shares : List (Share φ φ)} {values : List φ}
    (h : Ends (openShares p phase shares) s es (.ok values) t) :
    values.length = shares.length ∧
      t = { s with pending := s.pending ++ values.zip (shares.map (·.tag)) } := by
  obtain ⟨all, rfl, rfl⟩ := always_openShares.of_ends h
  exact ⟨by rw [length_map, length_opened], by rw [map_snd_opened]⟩

/-- After a successful check nothing is left to check. -/
theorem ends_check (h : Ends (check p) s es (.ok ()) t) : t = { s with pending := [] } :=
  always_check.of_ends h

end MacCheck

namespace Sacrifice

/-- What can be told of a call. -/
inductive Act (φ : Type) where
  | tossed (stream : CoinStream)
  | opened (phase : String) (shares : List (Share φ φ)) (values : List φ)
  /-- A tag check has succeeded that covered these values and shares of tags. -/
  | checked (covered : List (φ × φ))
  | accepted

section Settled

variable {φ : Type}

/-- Every opening is followed by a check. -/
def Settled : List (Act φ) → Prop
  | [] => True
  | .opened _ _ _ :: acts => (∃ covered, .checked covered ∈ acts) ∧ Settled acts
  | _ :: acts => Settled acts

theorem settled_append {acts acts' : List (Act φ)} (h : Settled acts) (h' : Settled acts') :
    Settled (acts ++ acts') := by
  induction acts with
  | nil => exact h'
  | cons act acts ih =>
    cases act with
    | opened _ _ _ =>
      obtain ⟨⟨covered, hmem⟩, hrest⟩ := h
      exact ⟨⟨covered, mem_append_left acts' hmem⟩, ih hrest⟩
    | tossed _ | checked _ | accepted => exact ih h

/-- A check settles everything before it. -/
theorem settled_checked (acts : List (Act φ)) (covered : List (φ × φ)) :
    Settled (acts ++ [.checked covered]) := by
  induction acts with
  | nil => trivial
  | cons act acts ih =>
    cases act with
    | opened _ _ _ => exact ⟨⟨covered, mem_append_right acts mem_cons_self⟩, ih⟩
    | tossed _ | checked _ | accepted => exact ih

theorem Settled.exists_checked {before after : List (Act φ)} {phase : String}
    {shares : List (Share φ φ)} {values : List φ}
    (h : Settled (before ++ .opened phase shares values :: after)) :
    ∃ covered, .checked covered ∈ after := by
  induction before with
  | nil => exact h.1
  | cons act before ih =>
    cases act with
    | opened _ _ _ => exact ih h.2
    | tossed _ | checked _ | accepted => exact ih h

end Settled

variable {φ : Type} [ShareField φ] {p : Player} {c : Setting} {s t u : Sacrifice φ}
variable {es es' : List Event}

/-- A party goes through an act, seen from outside as these events. -/
inductive Act.Done (p : Player) :
    Act φ → (before : Sacrifice φ) → List Event → (after : Sacrifice φ) → Prop where
  | tossed {stream : CoinStream} {s : Sacrifice φ} {es : List Event}
      (h : Ends (CoinToss.shared p) s es (.ok stream) s) : Done p (.tossed stream) s es s
  | opened {phase : String} {shares : List (Share φ φ)} {values : List φ} {s : Sacrifice φ}
      {m : MacCheck φ} {es : List Event}
      (h : Ends (MacCheck.openShares p phase shares) s.checker es (.ok values) m) :
      Done p (.opened phase shares values) s es { s with checker := m }
  | checked {s : Sacrifice φ} {m : MacCheck φ} {es : List Event}
      (h : Ends (MacCheck.check p) s.checker es (.ok ()) m) :
      Done p (.checked s.checker.pending) s es { s with checker := m }
  | accepted {s : Sacrifice φ} : Done p .accepted s [] { s with batch := s.batch + 1 }

/-- A party goes through acts one after the other, and does nothing else. -/
inductive Performed (p : Player) :
    List (Act φ) → (before : Sacrifice φ) → List Event → (after : Sacrifice φ) → Prop where
  | nil {s : Sacrifice φ} : Performed p [] s [] s
  | cons {act : Act φ} {acts : List (Act φ)} {s t u : Sacrifice φ} {es es' : List Event}
      (h : act.Done p s es t) (hs : Performed p acts t es' u) :
      Performed p (act :: acts) s (es ++ es') u

namespace Performed

variable {acts acts' : List (Act φ)}

theorem append (h : Performed p acts s es t) (h' : Performed p acts' t es' u) :
    Performed p (acts ++ acts') s (es ++ es') u := by
  induction h with
  | nil => exact h'
  | cons hact _ ih =>
    rw [append_assoc]
    exact .cons hact (ih h')

theorem single {act : Act φ} (h : act.Done p s es t) : Performed p [act] s es t := by
  rw [← append_nil es]
  exact .cons h .nil

theorem of_append (h : Performed p (acts ++ acts') s es u) :
    ∃ es₁ es₂ t, es = es₁ ++ es₂ ∧ Performed p acts s es₁ t ∧ Performed p acts' t es₂ u := by
  induction acts generalizing s es with
  | nil => exact ⟨[], es, s, rfl, .nil, h⟩
  | cons act acts ih =>
    cases h with
    | cons hact hs =>
      obtain ⟨es₁, es₂, t, rfl, hfirst, hsecond⟩ := ih hs
      exact ⟨_, es₂, t, (append_assoc _ _ _).symm, .cons hact hfirst, hsecond⟩

end Performed

/-- The share of the key is never changed. -/
theorem Act.Done.key_eq {act : Act φ} (h : act.Done p s es t) : t.checker.key = s.checker.key := by
  cases h with
  | tossed _ => rfl
  | opened h => rw [(MacCheck.ends_openShares h).2]
  | checked h => rw [MacCheck.ends_check h]
  | accepted => rfl

theorem Performed.key_eq {acts : List (Act φ)} (h : Performed p acts s es t) :
    t.checker.key = s.checker.key := by
  induction h with
  | nil => rfl
  | cons hact _ ih => exact ih.trans hact.key_eq

/-- What waits for a check still does after an act, unless the act is a check that covers it. -/
theorem Act.Done.pending {act : Act φ} {items : List (φ × φ)} (h : act.Done p s es t)
    (hitems : items <:+: s.checker.pending) :
    (∃ covered, act = .checked covered ∧ items <:+: covered) ∨
      (∀ covered, act ≠ .checked covered) ∧ items <:+: t.checker.pending := by
  cases h with
  | tossed _ => exact Or.inr ⟨nofun, hitems⟩
  | opened h =>
    rw [(MacCheck.ends_openShares h).2]
    exact Or.inr ⟨nofun, hitems.trans (infix_append' [] _ _)⟩
  | checked _ => exact Or.inl ⟨_, rfl, hitems⟩
  | accepted => exact Or.inr ⟨nofun, hitems⟩

/-- **The next check covers what waits for it.** -/
theorem Performed.covers {acts : List (Act φ)} {items : List (φ × φ)}
    (h : Performed p acts s es t) (hitems : items <:+: s.checker.pending)
    (hchecked : ∃ covered, .checked covered ∈ acts) :
    ∃ between covered later, acts = between ++ .checked covered :: later ∧ items <:+: covered := by
  induction h with
  | nil =>
    obtain ⟨_, hmem⟩ := hchecked
    cases hmem
  | @cons act acts s t u es es' hact _ ih =>
    rcases hact.pending hitems with ⟨covered, rfl, hcovered⟩ | ⟨hother, hitems⟩
    · exact ⟨[], covered, acts, rfl, hcovered⟩
    · obtain ⟨covered, hmem⟩ := hchecked
      rcases mem_cons.mp hmem with heq | hmem
      · exact absurd heq.symm (hother covered)
      · obtain ⟨between, covered, later, rfl, hcovered⟩ := ih hitems ⟨covered, hmem⟩
        exact ⟨act :: between, covered, later, rfl, hcovered⟩

/-- What was opened and settled is covered by a check. -/
theorem Performed.opened_covered {before after : List (Act φ)} {phase : String}
    {shares : List (Share φ φ)} {values : List φ}
    (h : Performed p (before ++ .opened phase shares values :: after) s es t)
    (hsettled : Settled (before ++ .opened phase shares values :: after)) :
    ∃ between covered later, after = between ++ .checked covered :: later ∧
      values.zip (shares.map (·.tag)) <:+: covered := by
  obtain ⟨es₁, es₂, u, -, -, h⟩ := h.of_append
  cases h with
  | cons hact hrest =>
    cases hact with
    | opened hopened =>
      refine hrest.covers ?_ hsettled.exists_checked
      rw [(MacCheck.ends_openShares hopened).2]
      exact (suffix_append _ _).isInfix

section Calls

theorem ends_openParts {phase : String} {pieces : List (List (Share φ φ))} {parts : List (List φ)}
    (h : Ends (pieces.mapM fun part => checking (MacCheck.openShares c.player phase part))
      s es (.ok parts) t) :
    Forall₂ (fun piece part => part.length = piece.length) pieces parts ∧
      Performed c.player (zipWith (Act.opened phase) pieces parts) s es t := by
  induction pieces generalizing s es parts with
  | nil =>
    rw [mapM_nil] at h
    obtain ⟨rfl, hr, rfl⟩ := ends_pure.mp h
    cases hr
    exact ⟨.nil, .nil⟩
  | cons piece pieces ih =>
    rw [mapM_cons] at h
    obtain ⟨es₁, _, part, v, rfl, hopened, h⟩ := h.of_bind_ok
    rw [bind_pure_comp, ends_map] at h
    obtain ⟨rest, hrest, rfl⟩ := h
    obtain ⟨m, hpart, rfl⟩ := hopened.of_zoom
    obtain ⟨hlengths, hperformed⟩ := ih hrest
    exact ⟨.cons (MacCheck.ends_openShares hpart).1 hlengths, .cons (.opened hpart) hperformed⟩

/-- Shares are opened part by part. -/
theorem ends_openShares {phase : String} {shares : List (Share φ φ)} {values : List φ}
    (h : Ends (openShares c phase shares) s es (.ok values) t) :
    ∃ parts, values = parts.flatten ∧
      Forall₂ (fun piece part => part.length = piece.length) (batches c.batchSize shares)
        parts ∧
      Performed c.player (zipWith (Act.opened phase) (batches c.batchSize shares) parts)
        s es t := by
  rw [openShares, bind_pure_comp, ends_map] at h
  obtain ⟨parts, hparts, rfl⟩ := h
  exact ⟨parts, rfl, ends_openParts hparts⟩

theorem ends_checking_check (h : Ends (checking (MacCheck.check c.player)) s es (.ok ()) t) :
    Performed c.player [.checked s.checker.pending] s es t := by
  obtain ⟨m, hcheck, rfl⟩ := h.of_zoom
  exact .single (.checked hcheck)

/-- Nobody is blamed by a call that succeeds. -/
theorem not_ends_blame {α : Type} {index : Nat} {suspects : List (Share φ φ)} {a : α} :
    ¬ Ends (blame c index suspects) s es (.ok a) t := by
  intro h
  rw [blame, ends_get_bind] at h
  obtain ⟨_, _, _, _, -, -, hfail⟩ := h.of_bind_ok
  exact not_ends_fail hfail

/-- One share is opened in one part. -/
theorem ends_openShares_single {phase : String} {x : Share φ φ} {values : List φ}
    (hsize : 0 < c.batchSize)
    (h : Ends (openShares c phase [x]) s es (.ok values) t) :
    ∃ v, values = [v] ∧ Performed c.player [.opened phase [x] [v]] s es t := by
  obtain ⟨parts, rfl, hlengths, hperformed⟩ := ends_openShares h
  rw [batches_of_length_le (cons_ne_nil x []) hsize] at hlengths hperformed
  obtain ⟨part, rest, hlength, hrest, rfl⟩ := forall₂_cons_left_iff.mp hlengths
  cases hrest
  obtain ⟨v, rfl⟩ := length_eq_one_iff.mp hlength
  exact ⟨v, rfl, hperformed⟩

/-- **How a batch is accepted**: the combination of its check values is opened, it is zero,
and then the tags are checked. -/
theorem ends_conclude {α : Type} {start : Nat} {taus : List (Share φ φ)} {stream : CoinStream}
    {suspects : Nat → List (Share φ φ)} {result a : α} (hsize : 0 < c.batchSize)
    (h : Ends (conclude c start taus stream suspects result) s es (.ok a) t) :
    ∃ covered, Performed c.player [.opened "sacrifice check" [combine taus stream] [0],
      .checked covered, .accepted] s es t := by
  obtain ⟨es₁, es₂, verdict, u, rfl, hverdict, h⟩ := h.of_bind_ok
  obtain ⟨es₃, es₄, values, v, rfl, hopened, hverdict⟩ := hverdict.of_bind_ok
  obtain ⟨value, rfl, hcombined⟩ := ends_openShares_single hsize hopened
  rw [headD_cons] at hverdict
  by_cases hzero : value = 0
  · subst hzero
    rw [if_pos rfl] at hverdict
    rw [bind_pure_comp, ends_map] at hverdict
    obtain ⟨_, hcheck, rfl⟩ := hverdict
    rw [accept, Session.ends_modify_bind] at h
    obtain ⟨rfl, -, rfl⟩ := ends_pure.mp h
    refine ⟨v.checker.pending, ?_⟩
    have hlast := (ends_checking_check hcheck).append (.single .accepted)
    simpa using hcombined.append hlast
  · -- the values are opened one by one, and the call fails at one of them
    rw [if_neg hzero] at hverdict
    rw [bind_pure_comp, ends_map] at hverdict
    obtain ⟨j, -, rfl⟩ := hverdict
    exact absurd h not_ends_blame

/-- What a batch of any kind opens, and which values have to be zero. -/
structure Trial (φ : Type) where
  phase : String
  /-- The shares that are opened first, after a stream was tossed. -/
  masked : CoinStream → List (Share φ φ)
  /-- The check values, once these are open. -/
  taus : CoinStream → List φ → List (Share φ φ)
  /-- The stream that the check values are combined with. -/
  rest : CoinStream → CoinStream

namespace Trial

/-- The acts of a batch that is accepted: a stream is tossed, the masked shares are opened
part by part, the combination of the check values is opened and is zero, and the tags are
checked. -/
def Accepted (c : Setting) (trial : Trial φ) (acts : List (Act φ)) : Prop :=
  ∃ stream parts covered,
    Forall₂ (fun piece part => part.length = piece.length)
      (batches c.batchSize (trial.masked stream)) parts ∧
    acts = .tossed stream ::
      (zipWith (Act.opened trial.phase) (batches c.batchSize (trial.masked stream)) parts ++
      [.opened "sacrifice check" [combine (trial.taus stream parts.flatten) (trial.rest stream)] [0],
        .checked covered, .accepted])

/-- **A batch that succeeds was accepted.** -/
theorem accepted_of_ends {α : Type} {trial : Trial φ} {stream : CoinStream}
    {masked : List (Share φ φ)} {opened : List φ} {taus : List (Share φ φ)} {rest : CoinStream}
    {start : Nat} {suspects : Nat → List (Share φ φ)} {result a : α} {v : Sacrifice φ}
    {es₁ es₂ es₃ : List Event} (hsize : 0 < c.batchSize)
    (hstream : Ends (batchStream c) s es₁ (.ok stream) u)
    (hopened : Ends (openShares c trial.phase masked) u es₂ (.ok opened) v)
    (hconclude : Ends (conclude c start taus rest suspects result) v es₃ (.ok a) t)
    (hmasked : masked = trial.masked stream) (htaus : taus = trial.taus stream opened)
    (hrest : rest = trial.rest stream) :
    ∃ acts, Performed c.player acts s (es₁ ++ (es₂ ++ es₃)) t ∧ trial.Accepted c acts := by
  subst hmasked htaus hrest
  obtain rfl := CoinToss.ends_shared hstream
  obtain ⟨parts, rfl, hlengths, hparts⟩ := ends_openShares hopened
  obtain ⟨covered, hconcluded⟩ := ends_conclude hsize hconclude
  exact ⟨_, .cons (.tossed hstream) (hparts.append hconcluded), stream, parts, covered, hlengths,
    rfl⟩

end Trial

/-- The trial of a batch of triples. -/
def tripleTrial (pairs : List (Triple φ φ × Triple φ φ)) : Trial φ where
  phase := "sacrifice rho sigma"
  masked stream := pairs.map (fun (k, s) => k.a.mulPublic (sample stream).1 - s.a) ++
    pairs.map fun (k, s) => k.b - s.b
  taus stream opened :=
    (pairs.zip ((opened.take pairs.length).zip (opened.drop pairs.length))).map
      fun ((k, s), (rho, sigma)) =>
        k.c.mulPublic (sample stream).1 - s.c - s.a.mulPublic sigma - k.b.mulPublic rho
  rest stream := (sample (α := φ) stream).2

/-- The trial of a batch of squares. -/
def squareTrial (pairs : List (SquarePair φ × SquarePair φ)) : Trial φ where
  phase := "sacrifice rho"
  masked stream := pairs.map fun (k, s) => k.1.mulPublic (sample stream).1 - s.1
  taus stream opened := (pairs.zip opened).map fun ((k, s), rho) =>
    k.2.mulPublic ((sample stream).1 * (sample stream).1) - s.2
      - (k.1.mulPublic (sample stream).1 + s.1).mulPublic rho
  rest stream := (sample (α := φ) stream).2

/-- The trial of a batch of products, by a party with its share of the key. -/
def productTrial (key : φ) (me : Nat) (items : List (Product φ)) : Trial φ where
  phase := "product check"
  masked _ := items.map (fun i => i.x - i.helper.a) ++ items.map fun i => i.y - i.helper.b
  taus _ opened :=
    (items.zip ((opened.take items.length).zip (opened.drop items.length))).map
      fun (i, (eps, delta)) =>
        (i.helper.c + i.helper.b.mulPublic eps + i.helper.a.mulPublic delta).addPublic
          (eps * delta) key me - i.target
  rest stream := stream

theorem ends_tripleBatch {kept : Nat} {pairs : List (Triple φ φ × Triple φ φ)}
    {good : List (Triple φ φ)} (hsize : 0 < c.batchSize)
    (h : Ends (tripleBatch c kept pairs) s es (.ok good) t) :
    ∃ acts, Performed c.player acts s es t ∧ (tripleTrial pairs).Accepted c acts := by
  obtain ⟨es₁, _, stream, u, rfl, hstream, h⟩ := h.of_bind_ok
  rcases hsample : sample (α := φ) stream with ⟨x, rest⟩
  rw [hsample] at h
  obtain ⟨es₂, es₃, opened, v, rfl, hopened, h⟩ := h.of_bind_ok
  refine Trial.accepted_of_ends hsize hstream hopened h ?_ ?_ ?_ <;>
    simp only [tripleTrial, hsample]

theorem ends_squareBatch {kept : Nat} {pairs : List (SquarePair φ × SquarePair φ)}
    {good : List (SquarePair φ)} (hsize : 0 < c.batchSize)
    (h : Ends (squareBatch c kept pairs) s es (.ok good) t) :
    ∃ acts, Performed c.player acts s es t ∧ (squareTrial pairs).Accepted c acts := by
  obtain ⟨es₁, _, stream, u, rfl, hstream, h⟩ := h.of_bind_ok
  rcases hsample : sample (α := φ) stream with ⟨x, rest⟩
  rw [hsample] at h
  obtain ⟨es₂, es₃, opened, v, rfl, hopened, h⟩ := h.of_bind_ok
  refine Trial.accepted_of_ends hsize hstream hopened h ?_ ?_ ?_ <;>
    simp only [squareTrial, hsample]

theorem ends_productBatch {start : Nat} {items : List (Product φ)} (hsize : 0 < c.batchSize)
    (h : Ends (productBatch c start items) s es (.ok ()) t) :
    ∃ acts, Performed c.player acts s es t ∧
      (productTrial s.checker.key c.player.me items).Accepted c acts := by
  rw [productBatch, ends_get_bind] at h
  obtain ⟨es₁, _, stream, u, rfl, hstream, h⟩ := h.of_bind_ok
  obtain ⟨es₂, es₃, opened, v, rfl, hopened, hconclude⟩ := h.of_bind_ok
  exact Trial.accepted_of_ends hsize hstream hopened hconclude rfl rfl rfl

/-- Batches of pairs are accepted one after the other. -/
theorem ends_eachBatch {α : Type} {check : Nat → List (α × α) → Session (Sacrifice φ) (List α)}
    {trial : List (α × α) → Trial φ}
    (hcheck : ∀ {kept batch s es good t}, Ends (check kept batch) s es (.ok good) t →
      ∃ acts, Performed c.player acts s es t ∧ (trial batch).Accepted c acts)
    {kept result : List α} {batches : List (List (α × α))}
    (h : Ends (eachBatch check kept batches) s es (.ok result) t) :
    ∃ logs, Performed c.player logs.flatten s es t ∧
      Forall₂ (Trial.Accepted c) (batches.map trial) logs := by
  induction batches generalizing s es kept with
  | nil =>
    obtain ⟨rfl, -, rfl⟩ := ends_pure.mp h
    exact ⟨[], .nil, .nil⟩
  | cons batch batches ih =>
    obtain ⟨es₁, es₂, good, u, rfl, hbatch, h⟩ := h.of_bind_ok
    obtain ⟨acts, hacts, haccepted⟩ := hcheck hbatch
    obtain ⟨logs, hlogs, hrest⟩ := ih h
    exact ⟨acts :: logs, hacts.append hlogs, .cons haccepted hrest⟩

/-- Batches of products are accepted one after the other. -/
theorem ends_eachProducts (hsize : 0 < c.batchSize) {start : Nat}
    {batches : List (List (Product φ))}
    (h : Ends (eachProducts c start batches) s es (.ok ()) t) :
    ∃ logs, Performed c.player logs.flatten s es t ∧
      Forall₂ (Trial.Accepted c)
        (batches.map (productTrial s.checker.key c.player.me)) logs := by
  induction batches generalizing s es start with
  | nil =>
    obtain ⟨rfl, -, rfl⟩ := ends_pure.mp h
    exact ⟨[], .nil, .nil⟩
  | cons batch batches ih =>
    obtain ⟨es₁, es₂, _, u, rfl, hbatch, h⟩ := h.of_bind_ok
    obtain ⟨acts, hacts, haccepted⟩ := ends_productBatch hsize hbatch
    obtain ⟨logs, hlogs, hrest⟩ := ih h
    rw [hacts.key_eq] at hrest
    exact ⟨acts :: logs, hacts.append hlogs, .cons haccepted hrest⟩

/-- The products that a check is about. -/
def productsOf (factors : List (Share φ φ × Share φ φ)) (targets : List (Share φ φ))
    (helpers : List (Triple φ φ)) : List (Product φ) :=
  (factors.zip (targets.zip helpers)).map fun (f, t, h) => ⟨f.1, f.2, t, h⟩

theorem ends_products (hsize : 0 < c.batchSize) {factors : List (Share φ φ × Share φ φ)}
    {targets : List (Share φ φ)} {helpers : List (Triple φ φ)}
    (h : Ends (products c factors targets helpers) s es (.ok ()) t) :
    ∃ logs, Performed c.player logs.flatten s es t ∧
      Forall₂ (Trial.Accepted c) ((batches c.amortize (productsOf factors targets helpers)).map
        (productTrial s.checker.key c.player.me)) logs := by
  rw [products] at h
  split at h
  · obtain ⟨_, _, _, _, -, hfail, -⟩ := h.of_bind_ok
    exact absurd hfail not_ends_fail
  · exact ends_eachProducts hsize h

/-- Opened values that are checked at once. -/
theorem ends_opened_checked {phase : String} {shares : List (Share φ φ)} {values : List φ}
    {es₁ es₂ : List Event} (hopened : Ends (openShares c phase shares) s es₁ (.ok values) t)
    (hcheck : Ends (checking (MacCheck.check c.player)) t es₂ (.ok ()) u) :
    ∃ acts covered, Performed c.player (acts ++ [.checked covered]) s (es₁ ++ es₂) u := by
  obtain ⟨parts, -, -, hparts⟩ := ends_openShares hopened
  exact ⟨_, _, hparts.append (ends_checking_check hcheck)⟩

theorem ends_inversesFromTriples {items : List (Triple φ φ)}
    {result : List (Share φ φ × Share φ φ)}
    (h : Ends (inversesFromTriples c items) s es (.ok result) t) :
    ∃ acts covered, Performed c.player (acts ++ [.checked covered]) s es t := by
  obtain ⟨es₁, es₂, values, u, rfl, hopened, h⟩ := h.of_bind_ok
  rw [bind_pure_comp, ends_map] at h
  obtain ⟨_, hcheck, -⟩ := h
  exact ends_opened_checked hopened hcheck

theorem ends_bitsFromSquares {ψ : Type} [RootField ψ] {s t : Sacrifice ψ}
    {items : List (SquarePair ψ)} {result : List (Share ψ ψ)}
    (h : Ends (bitsFromSquares c items) s es (.ok result) t) :
    ∃ acts covered, Performed c.player (acts ++ [.checked covered]) s es t := by
  rw [bitsFromSquares, ends_get_bind] at h
  cases hhalf : ShareField.inverse? ((1 : ψ) + 1) with
  | none =>
    rw [hhalf] at h
    exact absurd h not_ends_fail
  | some half =>
    rw [hhalf] at h
    obtain ⟨es₁, _, values, u, rfl, hopened, h⟩ := h.of_bind_ok
    obtain ⟨es₂, es₃, _, v, rfl, hcheck, h⟩ := h.of_bind_ok
    rw [ends_get_bind, bind_pure_comp, ends_map] at h
    obtain ⟨_, hfound, -⟩ := h
    obtain ⟨-, rfl, rfl⟩ := Session.ends_check hfound
    rw [append_nil]
    exact ends_opened_checked hopened hcheck

/-- The trials of a call, by a party with its share of the key. -/
def Call.trials (c : Setting) (key : φ) : Call φ → List (Trial φ)
  | triples candidates => (pairings c candidates).map tripleTrial
  | squares candidates => (pairings c candidates).map squareTrial
  | bits items helpers =>
    (batches c.amortize (productsOf (items.map fun b => (b, b)) items helpers)).map
      (productTrial key c.player.me)
  | inverses pairs helpers =>
    (batches c.amortize (productsOf pairs
      (pairs.map fun _ => (0 : Share φ φ).addPublic 1 key c.player.me) helpers)).map
      (productTrial key c.player.me)
  | inversesFromTriples _ | bitsFromSquares _ => []

omit [ShareField φ] in
/-- Whether a call makes new data of opened values; it has no trials then. -/
def Call.derives : Call φ → Bool
  | inversesFromTriples _ | bitsFromSquares _ => true
  | _ => false

/-- The acts of a call that has succeeded: those of its trials, or of an opening that is
checked. -/
structure Accounted (c : Setting) (trials : List (Trial φ)) (derives : Bool)
    (logs : List (List (Act φ))) (rest : List (Act φ)) : Prop where
  accepted : Forall₂ (Trial.Accepted c) trials logs
  rest_eq_nil : derives = false → rest = []
  rest_checked : derives = true → ∃ acts covered, rest = acts ++ [.checked covered]

section Accounts

variable {trials : List (Trial φ)} {logs : List (List (Act φ))}

theorem Accounted.of_logs (h : ∃ logs, Performed p logs.flatten s es t ∧
    Forall₂ (Trial.Accepted c) trials logs) :
    ∃ logs rest, Performed p (logs.flatten ++ rest) s es t ∧
      Accounted c trials false logs rest := by
  obtain ⟨logs, hlogs, haccepted⟩ := h
  exact ⟨logs, [], by rwa [append_nil], haccepted, fun _ => rfl, nofun⟩

theorem Accounted.of_checked (h : ∃ acts covered, Performed p (acts ++ [.checked covered]) s es t) :
    ∃ logs rest, Performed p (logs.flatten ++ rest) s es t ∧ Accounted c [] true logs rest := by
  obtain ⟨acts, covered, hacts⟩ := h
  exact ⟨[], _, hacts, .nil, nofun, fun _ => ⟨acts, covered, rfl⟩⟩

theorem Trial.Accepted.exists_eq {trial : Trial φ} {acts : List (Act φ)}
    (h : trial.Accepted c acts) :
    ∃ before covered, acts = before ++ [.checked covered] ++ [.accepted] := by
  obtain ⟨stream, parts, covered, -, rfl⟩ := h
  rw [append_cons, append_cons _ _ [Act.accepted], ← cons_append, ← cons_append]
  exact ⟨_, covered, rfl⟩

theorem settled_logs (h : Forall₂ (Trial.Accepted c) trials logs) : Settled logs.flatten := by
  induction h with
  | nil => trivial
  | cons haccepted _ ih =>
    obtain ⟨before, covered, rfl⟩ := haccepted.exists_eq
    exact settled_append (settled_append (settled_checked before covered) trivial) ih

theorem Performed.pending_eq_nil {acts : List (Act φ)} {covered : List (φ × φ)}
    (h : Performed p (acts ++ [.checked covered]) s es t) : t.checker.pending = [] := by
  obtain ⟨es₁, es₂, u, -, -, hcheck⟩ := h.of_append
  cases hcheck with
  | cons hact hnil =>
    cases hnil
    cases hact with
    | checked hdone => rw [MacCheck.ends_check hdone]

/-- After the last of some trials nothing is left to check. -/
theorem Performed.pending_logs (h : Forall₂ (Trial.Accepted c) trials logs) (hsome : trials ≠ [])
    (hlogs : Performed p logs.flatten s es t) : t.checker.pending = [] := by
  induction h generalizing s es with
  | nil => exact absurd rfl hsome
  | @cons trial log trials logs haccepted hrest ih =>
    obtain ⟨es₁, es₂, u, -, hlog, hothers⟩ := hlogs.of_append
    by_cases hlast : trials = []
    · subst hlast
      cases hrest
      cases hothers
      obtain ⟨before, covered, rfl⟩ := haccepted.exists_eq
      obtain ⟨es₃, es₄, v, -, hchecked, haccept⟩ := hlog.of_append
      cases haccept with
      | cons hact hnil =>
        cases hnil
        cases hact
        exact hchecked.pending_eq_nil
    · exact ih hlast hothers

variable {derives : Bool} {rest : List (Act φ)} (h : Accounted c trials derives logs rest)
include h

theorem Accounted.settled : Settled (logs.flatten ++ rest) := by
  refine settled_append (settled_logs h.accepted) ?_
  cases derives with
  | false =>
    rw [h.rest_eq_nil rfl]
    trivial
  | true =>
    obtain ⟨acts, covered, rfl⟩ := h.rest_checked rfl
    exact settled_checked acts covered

theorem Accounted.pending_eq_nil (hsome : trials ≠ [] ∨ derives = true)
    (hperformed : Performed p (logs.flatten ++ rest) s es t) : t.checker.pending = [] := by
  cases derives with
  | false =>
    rw [h.rest_eq_nil rfl, append_nil] at hperformed
    exact hperformed.pending_logs h.accepted (hsome.resolve_right nofun)
  | true =>
    obtain ⟨acts, covered, rfl⟩ := h.rest_checked rfl
    rw [← append_assoc] at hperformed
    exact hperformed.pending_eq_nil

end Accounts

end Calls

/-- A call that succeeds is accounted for. -/
theorem ends_call {f : FieldName} {c : Setting} (hsize : 0 < c.batchSize) {call : Call f.Carrier}
    {s t : Sacrifice f.Carrier} {es : List Event} {result : Items f.Carrier}
    (h : Ends (call.run c) s es (.ok result) t) :
    ∃ logs rest, Performed c.player (logs.flatten ++ rest) s es t ∧
      Accounted c (call.trials c s.checker.key) call.derives logs rest := by
  cases call with
  | triples candidates =>
    obtain ⟨_, h, -⟩ := ends_map.mp h
    exact Accounted.of_logs (ends_eachBatch (ends_tripleBatch hsize) h)
  | squares candidates =>
    obtain ⟨_, h, -⟩ := ends_map.mp h
    exact Accounted.of_logs (ends_eachBatch (ends_squareBatch hsize) h)
  | bits items helpers =>
    obtain ⟨_, hbits, -⟩ := ends_map.mp h
    rw [bits, bind_pure_comp, ends_map] at hbits
    obtain ⟨_, hproducts, -⟩ := hbits
    exact Accounted.of_logs (ends_products hsize hproducts)
  | inverses pairs helpers =>
    obtain ⟨_, hinverses, -⟩ := ends_map.mp h
    rw [inverses, ends_get_bind, bind_pure_comp, ends_map] at hinverses
    obtain ⟨_, hproducts, -⟩ := hinverses
    exact Accounted.of_logs (ends_products hsize hproducts)
  | inversesFromTriples items =>
    obtain ⟨_, h, -⟩ := ends_map.mp h
    exact Accounted.of_checked (ends_inversesFromTriples h)
  | bitsFromSquares items =>
    refine Accounted.of_checked ?_
    -- only the fields of odd characteristic have roots
    cases f with
    | mersenne61 | mersenne127 =>
      obtain ⟨_, h, -⟩ := ends_map.mp h
      exact ends_bitsFromSquares h
    | gf128 | gf2 => exact absurd h not_ends_fail

theorem player_of {p : Player} {amortize : Nat} {c : Setting} (h : Setting.of p amortize = .ok c) :
    c.player = p ∧ 0 < c.batchSize := by
  rw [Setting.of] at h
  split at h
  · cases h
  · next hpos =>
      cases h
      refine ⟨rfl, ?_⟩
      show 0 < min (2 * amortize) (2 ^ 64 - 1)
      omega

/-- **Nothing opened stays unchecked.**  Whatever the other parties do and whatever waits for
a check before, a call that succeeds goes through acts of which every opening is covered by a
later check.  Each of its trials was accepted, so that the combination of the check values was
opened as zero, and after a trial, or after data was made of opened values, nothing waits for
a check. -/
theorem openings_checked {f : FieldName} {p : Player} {amortize : Nat} {c : Setting}
    (hc : Setting.of p amortize = .ok c) {call : Call f.Carrier} {s t : Sacrifice f.Carrier}
    {es : List Event} {result : Items f.Carrier}
    (h : Ends (call.run c) s es (.ok result) t) :
    ∃ logs rest, Performed p (logs.flatten ++ rest) s es t ∧
      Forall₂ (Trial.Accepted c) (call.trials c s.checker.key) logs ∧
      (call.derives = false → rest = []) ∧
      (call.trials c s.checker.key ≠ [] ∨ call.derives = true → t.checker.pending = []) ∧
      ∀ before phase shares values after,
        logs.flatten ++ rest = before ++ .opened phase shares values :: after →
        ∃ between covered later, after = between ++ .checked covered :: later ∧
          values.zip (shares.map (·.tag)) <:+: covered := by
  obtain ⟨hplayer, hsize⟩ := player_of hc
  obtain ⟨logs, rest, hperformed, haccount⟩ := ends_call hsize h
  rw [hplayer] at hperformed
  refine ⟨logs, rest, hperformed, haccount.accepted, haccount.rest_eq_nil, ?_, ?_⟩
  · intro hsome
    exact haccount.pending_eq_nil hsome hperformed
  · intro before phase shares values after hacts
    have hsettled := haccount.settled
    rw [hacts] at hperformed hsettled
    exact hperformed.opened_covered hsettled

section Honest

/-- What three parties have opened before: a zero. -/
def zeroOpened : Ledger Mersenne61 := ⟨fun _ => 1, [(0, fun _ => 0)]⟩

theorem pairings_two {α : Type} (p : Player) (x y : α) : pairings ⟨p, 1⟩ [x, y] = [[(x, y)]] := by
  have hbatches : batches (Setting.batchSize ⟨p, 1⟩) [x, y] = [[x, y]] :=
    batches_of_length_le (cons_ne_nil x [y])
      (show 2 ≤ min (2 * 1) (Nat.pow 2 64 - 1) by decide)
  simp [pairings, hbatches]

/-- Among three honest parties, the first can check a right product against another. -/
theorem exists_ends_triples : ∃ es result t, Ends
    (Call.run (f := .mersenne61) ⟨⟨0, 3⟩, 1⟩ (.triples [rightProduct 0 0, rightProduct 1 0]))
    (standing zeroOpened 4 0) es (.ok result) t := by
  have hsound : zeroOpened.Sound 3 := by
    intro q hq
    cases mem_singleton.mp hq
    decide
  have hvalid : ∀ q ∈ [(rightProduct 0, rightProduct 1)],
      Candidate.Valid q.1 3 zeroOpened.key ∧ Candidate.Valid q.2 3 zeroOpened.key := by
    intro q hq
    cases mem_singleton.mp hq
    exact ⟨valid_rightProduct (by decide), valid_rightProduct (by decide)⟩
  -- right products pass any trial
  have hzero : ∀ t : Mersenne61,
      t * Candidate.productError (rightProduct 0) 3 - Candidate.productError (rightProduct 1) 3 = 0 := by
    intro t
    rw [productError_rightProduct (by decide), productError_rightProduct (by decide), mul_zero, sub_zero]
  have hgives := (decides_tripleBatch (A := 1) Nat.one_pos (by decide) hvalid).accepts zeroOpened rfl
    hsound 0 4 (fun _ => Coins.zeros.tape)
    (weighted_eq_zero (fun v hv => (mem_singleton.mp hv).trans (hzero _)) _)
  obtain ⟨es, hbatch⟩ := Gives.exists_ends hgives (i := 0) (by decide)
  have htriples : Ends
      (triples ⟨⟨0, 3⟩, 1⟩ [rightProduct 0 0, rightProduct 1 0]) (standing zeroOpened 4 0)
      (es ++ []) (.ok [rightProduct 0 0]) (standing zeroOpened.cleared 5 0) := by
    rw [triples, pairings_two]
    exact hbatch.andThen (.of_start (Session.start_pure _ _))
  exact ⟨_, _, _, htriples.map _⟩

theorem openings_checked_triples : ∃ es result t,
    Ends (Call.run (f := .mersenne61) ⟨⟨0, 3⟩, 1⟩
      (.triples [rightProduct 0 0, rightProduct 1 0])) (standing zeroOpened 4 0) es (.ok result) t ∧
    Setting.of ⟨0, 3⟩ 1 = .ok ⟨⟨0, 3⟩, 1⟩ ∧ t.checker.pending = [] := by
  obtain ⟨es, result, t, h⟩ := exists_ends_triples
  have hc : Setting.of ⟨0, 3⟩ 1 = .ok ⟨⟨0, 3⟩, 1⟩ := rfl
  obtain ⟨logs, rest, -, -, -, hpending, -⟩ := openings_checked hc h
  refine ⟨es, result, t, h, hc, hpending (Or.inl ?_)⟩
  rw [Call.trials, pairings_two]
  exact cons_ne_nil _ _

end Honest

end Sacrifice

end Beaver
