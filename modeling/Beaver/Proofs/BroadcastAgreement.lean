import Mathlib.Data.Set.Function
import Beaver.Proofs.Corruption

/-!
# Broadcasts among corrupted parties

In a broadcast everybody sends its value to all others, and then a list of digests of
all values it has got.  A party that sees the same list from everybody knows that all
honest parties have got the same values, as long as no two different values that came
from a corrupted party have the same digest: the digests that two honest parties
exchange pin every entry, and nobody else has to be trusted.
-/

namespace Beaver

open List
open Function (update)

variable {σ α : Type}

theorem map_update_cons {β : Type} {k : Nat} {ks : List Nat} (hk : k ∉ ks) (f : Nat → β) (y : β) :
    (k :: ks).map (update f k y) = y :: ks.map f := by
  rw [map_cons, Function.update_self]
  congr 1
  refine map_congr_left fun j hj => ?_
  have hjk : j ≠ k := fun h => hk (h ▸ hj)
  rw [Function.update_of_ne hjk]

namespace Player

variable {p : Player} {phase : String} {w : Wire α} {x : α}

/-- The events of a round in which a party exchanges values with all of `ks` but itself:
it gives `x` and gets `f k` from party `k`. -/
structure Round (w : Wire α) (me : Nat) (ks : List Nat) (x : α) (f : Nat → α)
    (es : List Event) : Prop where
  own : me ∈ ks → f me = x
  sent : ∀ k ∈ ks, k ≠ me → sentTo k es = [w.encode x]
  got : ∀ k ∈ ks, k ≠ me → ∃ m, gotFrom k es = [m] ∧ w.read m = .ok (f k)
  others : ∀ k, k ∉ ks ∨ k = me → sentTo k es = [] ∧ gotFrom k es = []

namespace Round

variable {me k : Nat} {ks : List Nat} {f : Nat → α} {es es' : List Event}

theorem skip (h : Round w me ks x f es) :
    Round w me (me :: ks) x (update f me x) es where
  own _ := Function.update_self me x f
  sent k hk hne := h.sent k (mem_of_ne_of_mem hne hk) hne
  got k hk hne := by
    rw [Function.update_of_ne hne]
    exact h.got k (mem_of_ne_of_mem hne hk) hne
  others k hk := by
    apply h.others
    by_cases hkm : k = me
    · exact Or.inr hkm
    · exact Or.inl fun hmem => hk.elim (fun hout => hout (mem_cons_of_mem me hmem)) hkm

theorem cons {y : α} (h : LinkEnd.Exchanged w k x y es) (h' : Round w me ks x f es')
    (hk : k ∉ ks) (hne : k ≠ me) : Round w me (k :: ks) x (update f k y) (es ++ es') where
  own hmem := by
    rw [Function.update_of_ne (Ne.symm hne)]
    exact h'.own (mem_of_ne_of_mem (Ne.symm hne) hmem)
  sent j hj hjm := by
    by_cases hjk : j = k
    · subst hjk
      rw [sentTo_append, h.sent, (h'.others j (Or.inl hk)).1, append_nil]
    · rw [sentTo_append, (h.others j hjk).1, h'.sent j (mem_of_ne_of_mem hjk hj) hjm,
        nil_append]
  got j hj hjm := by
    by_cases hjk : j = k
    · subst hjk
      obtain ⟨m, hm, hread⟩ := h.got
      refine ⟨m, ?_, by rw [hread, Function.update_self]⟩
      rw [gotFrom_append, hm, (h'.others j (Or.inl hk)).2, append_nil]
    · obtain ⟨m, hm, hread⟩ := h'.got j (mem_of_ne_of_mem hjk hj) hjm
      refine ⟨m, ?_, by rw [hread, Function.update_of_ne hjk]⟩
      rw [gotFrom_append, (h.others j hjk).2, hm, nil_append]
  others j hj := by
    have hjk : j ≠ k := by
      rintro rfl
      exact hj.elim (fun hout => hout mem_cons_self) hne
    have hrest := h'.others j (hj.imp_left fun hout hmem => hout (mem_cons_of_mem k hmem))
    rw [sentTo_append, gotFrom_append, (h.others j hjk).1, (h.others j hjk).2, hrest.1, hrest.2]
    exact ⟨rfl, rfl⟩

end Round

/-- What may have been sent in the midst of a round. -/
def Sending (w : Wire α) (me : Nat) (ks : List Nat) (x : α) (es : List Event) : Prop :=
  ∀ k, sentTo k es <+: if k ∈ ks ∧ k ≠ me then [w.encode x] else []

theorem Sending.cons {me k : Nat} {ks : List Nat} {es es' : List Event}
    (h : sentTo k es = [w.encode x] ∧ ∀ j, j ≠ k → sentTo j es = [])
    (h' : Sending w me ks x es') (hk : k ∉ ks) (hne : k ≠ me) :
    Sending w me (k :: ks) x (es ++ es') := by
  intro j
  have hj' := h' j
  rw [sentTo_append]
  by_cases hj : j = k
  · subst hj
    rw [if_neg fun hmem => hk hmem.1, prefix_nil] at hj'
    rw [h.1, hj', if_pos ⟨mem_cons_self, hne⟩, append_nil]
  · have hsame : j ∈ k :: ks ∧ j ≠ me ↔ j ∈ ks ∧ j ≠ me := by
      rw [mem_cons, or_iff_right hj]
    rw [h.2 j hj, nil_append]
    simpa only [hsame] using hj'

theorem Sending.skip {me : Nat} {ks : List Nat} {es : List Event} (h : Sending w me ks x es) :
    Sending w me (me :: ks) x es := by
  intro j
  have hsame : j ∈ me :: ks ∧ j ≠ me ↔ j ∈ ks ∧ j ≠ me := by grind
  simpa only [hsame] using h j

/-- One party after the other. -/
theorem traces_mapM_exchange (p : Player) (phase : String) (w : Wire α) (x : α) (ks : List Nat)
    (hnodup : ks.Nodup) :
    (ks.mapM fun k => if k = p.me then pure x else (p.link k).exchange phase w x :
      Session σ (List α)).Traces (Sending w p.me ks x)
      fun r es => ∀ v, r = .ok v → ∃ f, v = ks.map f ∧ Round w p.me ks x f es := by
  induction ks with
  | nil =>
    rw [mapM_nil]
    refine .pure (fun k => by simp) ?_
    intro v hv
    cases hv
    exact ⟨fun _ => x, rfl, by simp, by simp, by simp, by simp⟩
  | cons k ks ih =>
    obtain ⟨hk, hnodup⟩ := nodup_cons.mp hnodup
    have hrest := ih hnodup
    rw [mapM_cons]
    by_cases hme : k = p.me
    · subst hme
      rw [if_pos rfl, pure_bind]
      refine hrest.andThen (fun _ => Sending.skip) ?_ (by simp)
      intro xs es hsent hok
      obtain ⟨f, rfl, hround⟩ := hok xs rfl
      refine .pure (by simpa using hsent.skip) ?_
      intro v hv
      cases hv
      refine ⟨update f p.me x, (map_update_cons hk f x).symm, ?_⟩
      rw [append_nil]
      exact hround.skip
    · rw [if_neg hme]
      refine ((p.link k).traces_exchange phase w x).andThen ?_ ?_ (by simp)
      · intro es hsent j
        by_cases hj : j = k
        · subst hj
          rw [if_pos ⟨mem_cons_self, hme⟩]
          exact hsent.1
        · rw [hsent.2 j hj]
          exact nil_prefix
      · intro y es _ hok
        have hexchanged : LinkEnd.Exchanged w k x y es := hok y rfl
        have hsent : sentTo k es = [w.encode x] ∧ ∀ j, j ≠ k → sentTo j es = [] :=
          ⟨hexchanged.sent, fun j hj => (hexchanged.others j hj).1⟩
        refine hrest.andThen (fun es' hes' => .cons hsent hes' hk hme) ?_ (by simp)
        intro xs es' hes' hok
        obtain ⟨f, rfl, hround⟩ := hok xs rfl
        refine .pure (by simpa using Sending.cons hsent hes' hk hme) ?_
        intro v hv
        cases hv
        refine ⟨update f k y, (map_update_cons hk f y).symm, ?_⟩
        rw [append_nil]
        exact .cons hexchanged hround hk hme

/-- **What a party sees when it gathers values.** -/
theorem traces_gather (p : Player) (phase : String) (w : Wire α) (x : α) :
    (p.gather phase w x : Session σ (List α)).Traces (Sending w p.me (range p.parties) x)
      fun r es => ∀ v, r = .ok v → ∃ f, v = (range p.parties).map f ∧
        Round w p.me (range p.parties) x f es :=
  traces_mapM_exchange p phase w x _ nodup_range

/-- The digests that a party sends around when it has got these values. -/
def digests (w : Wire α) (v : List α) : List Bytes :=
  v.map fun m => Digest.hash (w.encode m)

theorem carries_digests (w : Wire α) {v : List α} (hv : v.length < 2 ^ 64) :
    (Wire.bytes 32).list.Carries (digests w v) := by
  refine .list (fun d hd => ?_) (by simpa [digests] using hv)
  obtain ⟨m, -, rfl⟩ := mem_map.mp hd
  exact Wire.carries_bytes (Digest.length_hash _)

/-- What a party sends to every other after the values; two parties have nothing to
compare. -/
def echo (w : Wire α) (n : Nat) (f : Nat → α) : List Bytes :=
  if n = 2 then [] else [(Wire.bytes 32).list.encode (digests w ((range n).map f))]

theorem length_echo (w : Wire α) (n : Nat) (f : Nat → α) :
    (echo w n f).length = if n = 2 then 0 else 1 :=
  apply_ite length ..

theorem echo_of_ne {n : Nat} (h : n ≠ 2) (w : Wire α) (f : Nat → α) :
    echo w n f = [(Wire.bytes 32).list.encode (digests w ((range n).map f))] :=
  if_neg h

/-- The first message of every party `k` was `f k`. -/
structure Heard (w : Wire α) (me n : Nat) (x : α) (f : Nat → α) (es : List Event) : Prop where
  own : f me = x
  others : ∀ k < n, k ≠ me → ∃ m rest, gotFrom k es = m :: rest ∧ w.read m = .ok (f k)

/-- The events of a broadcast that has succeeded. -/
structure Verified (w : Wire α) (me n : Nat) (x : α) (f : Nat → α) (es : List Event) : Prop where
  own : f me = x
  sent : ∀ k < n, k ≠ me → sentTo k es = w.encode x :: echo w n f
  got : ∀ k < n, k ≠ me → ∃ m ms, gotFrom k es = m :: ms ∧ w.read m = .ok (f k) ∧
    ms.length = (echo w n f).length ∧
    ∀ m' ∈ ms, (Wire.bytes 32).list.read m' = .ok (digests w ((range n).map f))

/-- The events in the midst of a broadcast: nothing but the value has been sent, or all
values have been heard. -/
def Broadcasting (w : Wire α) (me n : Nat) (x : α) (es : List Event) : Prop :=
  Sending w me (range n) x es ∨ ∃ f, Heard w me n x f es ∧
    ∀ k < n, k ≠ me → sentTo k es <+: w.encode x :: echo w n f

section Events

variable {me n : Nat} {f g : Nat → α} {es es' : List Event}

theorem Heard.append (h : Heard w me n x f es) (es' : List Event) :
    Heard w me n x f (es ++ es') where
  own := h.own
  others k hk hne := by
    obtain ⟨m, rest, hgot, hread⟩ := h.others k hk hne
    exact ⟨m, rest ++ gotFrom k es', by rw [gotFrom_append, hgot, cons_append], hread⟩

/-- The history tells what was heard. -/
theorem Heard.unique (h : Heard w me n x f es) (h' : Heard w me n x g es) {k : Nat} (hk : k < n) :
    f k = g k := by
  by_cases hme : k = me
  · rw [hme, h.own, h'.own]
  · obtain ⟨m, rest, hgot, hread⟩ := h.others k hk hme
    obtain ⟨m', rest', hgot', hread'⟩ := h'.others k hk hme
    obtain ⟨rfl, -⟩ := cons.inj (hgot.symm.trans hgot')
    exact Except.ok.inj (hread.symm.trans hread')

theorem Round.heard (h : Round w me (range n) x f es) (hme : me < n) :
    Heard w me n x f es where
  own := h.own (mem_range.mpr hme)
  others k hk hne := by
    obtain ⟨m, hgot, hread⟩ := h.got k (mem_range.mpr hk) hne
    exact ⟨m, [], hgot, hread⟩

theorem Verified.heard (h : Verified w me n x f es) : Heard w me n x f es where
  own := h.own
  others k hk hne := by
    obtain ⟨m, ms, hgot, hread, -⟩ := h.got k hk hne
    exact ⟨m, ms, hgot, hread⟩

/-- What is sent first is the value. -/
theorem Broadcasting.head (h : Broadcasting w me n x es) {k : Nat} (hk : k < n) (hne : k ≠ me)
    {m : Bytes} {ms : List Bytes} (hms : m :: ms <+: sentTo k es) : m = w.encode x := by
  rcases h with hsending | ⟨f, -, hsent⟩
  · have hfirst := hms.trans (hsending k)
    rw [if_pos ⟨mem_range.mpr hk, hne⟩] at hfirst
    exact (cons_prefix_cons.mp hfirst).1
  · exact (cons_prefix_cons.mp (hms.trans (hsent k hk hne))).1

/-- Two parties have nothing to compare. -/
theorem Round.verified_of_two (h : Round w me (range n) x f es) (hme : me < n) (htwo : n = 2) :
    Verified w me n x f es where
  own := h.own (mem_range.mpr hme)
  sent k hk hne := by rw [h.sent k (mem_range.mpr hk) hne, echo, if_pos htwo]
  got k hk hne := by
    obtain ⟨m, hgot, hread⟩ := h.got k (mem_range.mpr hk) hne
    exact ⟨m, [], hgot, hread, by rw [echo, if_pos htwo], by simp⟩

/-- In the round of digests every party gets at most these after the value. -/
theorem Round.broadcasting (h : Round w me (range n) x f es) (hme : me < n) (htwo : n ≠ 2)
    (h' : Sending (Wire.bytes 32).list me (range n) (digests w ((range n).map f)) es') :
    Broadcasting w me n x (es ++ es') := by
  refine Or.inr ⟨f, (h.heard hme).append es', fun k hk hne => ?_⟩
  have hfront := h' k
  rw [if_pos ⟨mem_range.mpr hk, hne⟩] at hfront
  rw [sentTo_append, h.sent k (mem_range.mpr hk) hne, echo_of_ne htwo]
  exact cons_prefix_cons.mpr ⟨rfl, hfront⟩

/-- After a round of digests that are all the same the values are verified. -/
theorem Round.verified {ds : Nat → List Bytes} (h : Round w me (range n) x f es)
    (h' : Round (Wire.bytes 32).list me (range n) (digests w ((range n).map f)) ds es')
    (hme : me < n) (htwo : n ≠ 2) (hsame : ∀ k < n, ds k = digests w ((range n).map f)) :
    Verified w me n x f (es ++ es') where
  own := h.own (mem_range.mpr hme)
  sent k hk hne := by
    rw [sentTo_append, h.sent k (mem_range.mpr hk) hne, h'.sent k (mem_range.mpr hk) hne,
      echo_of_ne htwo]
    rfl
  got k hk hne := by
    obtain ⟨m, hgot, hread⟩ := h.got k (mem_range.mpr hk) hne
    obtain ⟨m', hgot', hread'⟩ := h'.got k (mem_range.mpr hk) hne
    refine ⟨m, [m'], ?_, hread, by rw [echo_of_ne htwo]; rfl, ?_⟩
    · rw [gotFrom_append, hgot, hgot']
      rfl
    · intro m'' hm''
      obtain rfl := mem_singleton.mp hm''
      rw [hread', hsame k hk]

end Events

/-- **What a party sees of a broadcast.** -/
theorem traces_broadcast (p : Player) (hme : p.me < p.parties) (phase : String) (w : Wire α)
    (x : α) :
    (p.broadcast phase w x : Session σ (List α)).Traces (Broadcasting w p.me p.parties x)
      fun r es => ∀ v, r = .ok v → ∃ f, v = (range p.parties).map f ∧
        Verified w p.me p.parties x f es := by
  refine (p.traces_gather phase w x).andThen (fun es => Or.inl) ?_ (by simp)
  intro v es hsending hok
  obtain ⟨f, rfl, hround⟩ := hok v rfl
  by_cases htwo : p.parties = 2
  · have hmid : Broadcasting w p.me p.parties x es := Or.inl hsending
    rw [if_pos htwo]
    refine .pure (by simpa using hmid) ?_
    intro v hv
    cases hv
    rw [append_nil]
    exact ⟨f, rfl, hround.verified_of_two hme htwo⟩
  · rw [if_neg htwo]
    refine (p.traces_gather _ _ _).andThen (fun _ => hround.broadcasting hme htwo) ?_ (by simp)
    intro theirs es' hsending' hok'
    obtain ⟨ds, rfl, hround'⟩ := hok' theirs rfl
    have hmid := hround.broadcasting hme htwo hsending'
    split
    case isFalse => exact .fail (by simpa using hmid) (by simp)
    case isTrue hall =>
      refine .pure (by simpa using hmid) ?_
      intro v hv
      cases hv
      rw [append_nil]
      refine ⟨f, rfl, hround.verified hround' hme htwo fun k hk => ?_⟩
      exact beq_iff_eq.mp (all_eq_true.mp hall (ds k) (mem_map.mpr ⟨k, mem_range.mpr hk, rfl⟩))

/-- Digests that are read as others are the same. -/
theorem same_hashes {n : Nat} (hn : n < 2 ^ 64) {f g : Nat → α}
    (h : (Wire.bytes 32).list.read ((Wire.bytes 32).list.encode (digests w ((range n).map g)))
      = .ok (digests w ((range n).map f))) :
    ∀ k < n, Digest.hash (w.encode (g k)) = Digest.hash (w.encode (f k)) := by
  intro k hk
  have hcarries := carries_digests w (v := (range n).map g) (by simpa using hn)
  rw [hcarries.read_encode] at h
  have hat := congrArg (·[k]?) (Except.ok.inj h)
  simpa [digests, hk] using hat

/-- **The digests of one party pin what another has heard.**  If a party has succeeded,
everybody else who has sent it digests has heard values with the same digests. -/
theorem Verified.same_digests {n i j : Nat} {x y : α} {f : Nat → α} {es es' : List Event}
    (hn : n < 2 ^ 64) (htwo : n ≠ 2) (hi : i < n) (hj : j < n) (hij : j ≠ i)
    (h : Verified w i n x f es) (h' : Broadcasting w j n y es')
    (hlink : gotFrom j es <+: sentTo i es') :
    ∃ g, Heard w j n y g es' ∧
      ∀ k < n, Digest.hash (w.encode (g k)) = Digest.hash (w.encode (f k)) := by
  obtain ⟨m, ms, hgot, -, hlength, hread⟩ := h.got j hj hij
  rw [echo_of_ne htwo, length_singleton, length_eq_one_iff] at hlength
  obtain ⟨m', rfl⟩ := hlength
  rw [hgot] at hlink
  rcases h' with hsending | ⟨g, hheard, hsent⟩
  · -- it has not sent that much yet
    have hshort := (hlink.trans (hsending i)).length_le
    rw [if_pos ⟨mem_range.mpr hi, Ne.symm hij⟩] at hshort
    simp at hshort
  · have hboth := hlink.trans (hsent i hi (Ne.symm hij))
    rw [echo_of_ne htwo, cons_prefix_cons, cons_prefix_cons] at hboth
    obtain ⟨-, rfl, -⟩ := hboth
    exact ⟨g, hheard, same_hashes hn (hread _ mem_cons_self)⟩

end Player

/-- The values that honest parties have read in messages of party `k`. -/
def Scene.readFrom {β : Type} (s : Scene β) (honest : Finset Nat) (w : Wire α) (k : Nat) : Set α :=
  { a | ∃ j ∈ honest, ∃ m ∈ s.taken k j, w.read m = .ok a }

namespace Player

section Run

variable {n : Nat} {honest : Finset Nat} {phase : String} {w : Wire α} {x : Nat → α} {t : Nat → σ}
  {s : Scene (Except Failure (List α) × σ)} {i j k : Nat} {f g : Nat → α}
  (hrun : s.Reaches honest fun i => (broadcast ⟨i, n⟩ phase w (x i)).start (t i))
include hrun

/-- An honest party is in the midst of its broadcast. -/
theorem broadcasting_of_reaches (hj : j < n) : Broadcasting w j n (x j) (s.history j) :=
  (hrun.traces (traces_broadcast ⟨j, n⟩ hj phase w (x j) (t j))).1

theorem verified_of_reaches (hi : i < n) {v : List α} {t' : σ}
    (hok : s.program i = .done (.ok v, t')) :
    ∃ f, v = (range n).map f ∧ Verified w i n (x i) f (s.history i) :=
  (hrun.traces (traces_broadcast ⟨i, n⟩ hi phase w (x i) (t i))).2 _ hok v rfl

variable (hhonest : ∀ i ∈ honest, i < n) (hw : ∀ i ∈ honest, w.Carries (x i))
include hhonest hw

/-- What is heard from an honest party is its value. -/
theorem Heard.honest_value (h : Heard w i n (x i) f (s.history i)) (hi : i ∈ honest)
    (hk : k ∈ honest) : f k = x k := by
  by_cases hki : k = i
  · rw [hki, h.own]
  · have hkn := hhonest k hk
    obtain ⟨m, rest, hgot, hread⟩ := h.others k hkn hki
    have hlink := hrun.taken_of_sent hk i
    rw [Scene.taken, hgot, Scene.sent] at hlink
    have hfirst := (broadcasting_of_reaches hrun hkn).head (hhonest i hi) (Ne.symm hki) hlink
    rw [hfirst, (hw k hk).read_encode] at hread
    exact (Except.ok.inj hread).symm

/-- **Who has succeeded has heard what all honest parties have heard.** -/
theorem Verified.same_heard (hn : n < 2 ^ 64) (htwo : n ≠ 2)
    (hinj : ∀ k < n, k ∉ honest →
      Set.InjOn (fun a => Digest.hash (w.encode a)) (s.readFrom honest w k))
    (hi : i ∈ honest) (hj : j ∈ honest) (h : Verified w i n (x i) f (s.history i))
    (h' : Heard w j n (x j) g (s.history j)) : ∀ k < n, g k = f k := by
  intro k hk
  by_cases hhk : k ∈ honest
  · rw [h'.honest_value hrun hhonest hw hj hhk, h.heard.honest_value hrun hhonest hw hi hhk]
  · have hki : k ≠ i := fun h => hhk (h ▸ hi)
    have hkj : k ≠ j := fun h => hhk (h ▸ hj)
    obtain ⟨m, rest, hgot, hread⟩ := h.heard.others k hk hki
    obtain ⟨m', rest', hgot', hread'⟩ := h'.others k hk hkj
    by_cases hji : j = i
    · subst hji
      exact h'.unique h.heard hk
    · obtain ⟨g', hheard, hsame⟩ := h.same_digests hn htwo (hhonest i hi) (hhonest j hj) hji
        (broadcasting_of_reaches hrun (hhonest j hj)) (hrun.taken_of_sent hj i)
      have hdigest := hsame k hk
      rw [← h'.unique hheard hk] at hdigest
      have hg : g k ∈ s.readFrom honest w k :=
        ⟨j, hj, m', by rw [Scene.taken, hgot']; exact mem_cons_self, hread'⟩
      have hf : f k ∈ s.readFrom honest w k :=
        ⟨i, hi, m, by rw [Scene.taken, hgot]; exact mem_cons_self, hread⟩
      exact hinj k hk hhk hg hf hdigest

end Run

/-- **Broadcasts agree.**  Whatever corrupted parties send, if a broadcast succeeds at an
honest party, its entries for honest parties are their values, and every honest party
that has come to the comparison of digests has gathered the same values, so that no
broadcast succeeds with others.  No two different values that honest parties have read in
messages of the same corrupted party may have the same digest. -/
theorem broadcast_agreement {n : Nat} (hthree : 3 ≤ n) (hn : n < 2 ^ 64) {honest : Finset Nat}
    (hhonest : ∀ i ∈ honest, i < n) {phase : String} {w : Wire α} {x : Nat → α}
    (hw : ∀ i ∈ honest, w.Carries (x i)) {t : Nat → σ} {s : Scene (Except Failure (List α) × σ)}
    (hrun : s.Reaches honest fun i => (broadcast ⟨i, n⟩ phase w (x i)).start (t i))
    (hinj : ∀ k < n, k ∉ honest →
      Set.InjOn (fun a => Digest.hash (w.encode a)) (s.readFrom honest w k))
    {i : Nat} (hi : i ∈ honest) {v : List α} {t' : σ} (hok : s.program i = .done (.ok v, t')) :
    v.length = n ∧ (∀ k ∈ honest, v[k]? = some (x k)) ∧
      (∀ j ∈ honest, ∀ es u t', es <+: s.history j →
        ((gather ⟨j, n⟩ phase w (x j)).start (t j)).Follows es (.done (.ok u, t')) → u = v) ∧
      ∀ j ∈ honest, ∀ u t', s.program j = .done (.ok u, t') → u = v := by
  have htwo : n ≠ 2 := by omega
  obtain ⟨f, rfl, hverified⟩ := verified_of_reaches hrun (hhonest i hi) hok
  have hsame : ∀ j ∈ honest, ∀ g, Heard w j n (x j) g (s.history j) →
      (range n).map g = (range n).map f := by
    intro j hj g hheard
    have hall := hverified.same_heard hrun hhonest hw hn htwo hinj hi hj hheard
    exact map_congr_left fun k hk => hall k (mem_range.mp hk)
  refine ⟨by simp, ?_, ?_, ?_⟩
  · intro k hk
    have hvalue := hverified.heard.honest_value hrun hhonest hw hi hk
    simp [hhonest k hk, hvalue]
  · intro j hj es u t' hfront hfollows
    have hgather := traces_gather ⟨j, n⟩ phase w (x j) (t j) es _ hfollows
    obtain ⟨g, rfl, hround⟩ := hgather.2 _ rfl u rfl
    obtain ⟨rest, hrest⟩ := hfront
    have hheard := (hround.heard (hhonest j hj)).append rest
    rw [hrest] at hheard
    exact hsame j hj g hheard
  · intro j hj u t' hdone
    obtain ⟨g, rfl, hverified'⟩ := verified_of_reaches hrun (hhonest j hj) hdone
    exact hsame j hj g hverified'.heard

section Sample

/-- Parties 0 and 1 exchange messages. -/
def sampleLink (m₀ m₁ : Bytes) : List (Nat × Event) :=
  [(0, .sent 1 m₀), (1, .got 0 (some m₀)), (1, .sent 0 m₁), (0, .got 1 (some m₁))]

/-- Parties 0 and 1 exchange messages, and get `a` and `b` from party 2, which is
corrupted. -/
def sampleRound (m₀ m₁ a : Bytes) (b : Option Bytes) : List (Nat × Event) :=
  sampleLink m₀ m₁ ++ [(0, .sent 2 m₀), (0, .got 2 (some a)), (1, .sent 2 m₁), (1, .got 2 b)]

/-- The digests of the values true, false and true. -/
def sampleDigests : Bytes :=
  (Wire.bytes 32).list.encode (digests Wire.flag [true, false, true])

/-- A run of two honest parties with a corrupted one, which sends them the same value in
different messages, and then the digests to one of them only. -/
def sampleEvents : List (Nat × Event) :=
  sampleRound [1] [0] [1] (some [1, 9])
    ++ sampleRound sampleDigests sampleDigests sampleDigests none

/-- The programs of that run. -/
def samplePrograms (i : Nat) : Protocol (Except Failure (List Bool) × Unit) :=
  (broadcast ⟨i, 3⟩ "sample" Wire.flag (i == 0)).start ()

/-- Whether the sample run has led where it should: the first party has succeeded, and
only one value was read in messages of the corrupted party. -/
def sampleCheck (s : Scene (Except Failure (List Bool) × Unit)) : Bool :=
  ((s.program 0).result?.bind (·.1.toOption)) == some [true, false, true]
    && [0, 1].all fun j => (s.taken 2 j).all fun m => (Wire.flag.read m).toOption != some false

/-- There is a run in which the first party succeeds, and the other honest one has
gathered the same values. -/
theorem broadcast_agreement_sample :
    ∃ s : Scene (Except Failure (List Bool) × Unit), s.Reaches {0, 1} samplePrograms ∧
      s.program 0 = .done (.ok [true, false, true], ()) ∧
      ∀ es u, es <+: s.history 1 →
        ((gather ⟨1, 3⟩ "sample" Wire.flag false).start ()).Follows es (.done (.ok u, ())) →
        u = [true, false, true] := by
  have hcheck : (Scene.run? {0, 1} ⟨samplePrograms, fun _ => []⟩ sampleEvents).any sampleCheck
      = true := by
    decide +kernel
  obtain ⟨s, hrun, hs⟩ := Scene.exists_of_run? hcheck
  obtain ⟨hresult, hread⟩ := Bool.and_eq_true_iff.mp hs
  have hdone : s.program 0 = .done (.ok [true, false, true], ()) := by
    obtain ⟨⟨r, u⟩, hr, hok⟩ := Option.bind_eq_some_iff.mp (beq_iff_eq.mp hresult)
    have hvalue : r = .ok [true, false, true] := by
      cases r with
      | ok v => rw [Option.some.inj hok]
      | error e => cases hok
    rw [Protocol.eq_done_of_result? hr, hvalue]
  have hcarries : ∀ b, Wire.flag.Carries b := by
    intro b rest
    cases b with
    | false => rfl
    | true => rfl
  have honly : ∀ k < 3, k ∉ ({0, 1} : Finset Nat) →
      Set.InjOn (fun a => Digest.hash (Wire.flag.encode a)) (s.readFrom {0, 1} Wire.flag k) := by
    intro k hk hcorrupted
    obtain rfl : k = 2 := by
      simp only [Finset.mem_insert, Finset.mem_singleton, not_or] at hcorrupted
      omega
    have htrue : ∀ a ∈ s.readFrom {0, 1} Wire.flag 2, a = true := by
      intro a ha
      obtain ⟨j, hj, m, hm, hread'⟩ := ha
      have hj' : j ∈ [0, 1] := by simpa using hj
      have hno := all_eq_true.mp (all_eq_true.mp hread j hj') m hm
      rw [hread'] at hno
      cases a with
      | false => cases hno
      | true => rfl
    intro a ha b hb _
    rw [htrue a ha, htrue b hb]
  refine ⟨s, hrun, hdone, fun es u hfront hfollows => ?_⟩
  have hagree := broadcast_agreement (by decide) (by decide) (by decide) (fun i _ => hcarries _)
    hrun honly (by decide) hdone
  exact hagree.2.2.1 1 (by decide) es u () hfront hfollows

end Sample

end Player

end Beaver
