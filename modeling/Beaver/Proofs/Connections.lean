import Mathlib
import Beaver.Connection
import Beaver.Proofs.WireRoundTrip

/-!
# Who a party is linked to

Connections come in any order and may announce anything.  As long as every announced index is
above the party's own, below the number of parties and new, the links are those to the lower
parties and to the announced ones (`establish_of_admitted`); the first other index ends it
(`establish_of_unwelcome`).  As many different higher indices as there are higher parties are all
of them, so exactly the complete sets of peers are linked (`establish_complete`).
-/

namespace Beaver

open List

namespace Connection

/-- A stream of bytes that starts with an index in a machine word. -/
def Announces (stream : Bytes) (id : Nat) : Prop :=
  id < 2 ^ 64 ∧ ∃ rest, stream = announcement id ++ rest

/-- An index that is too small, too large or not new after the given ones. -/
def Unwelcome (me parties : Nat) (ids : List Nat) (id : Nat) : Prop :=
  id ≤ me ∨ parties ≤ id ∨ id ∈ ids

/-- Different indices of higher parties. -/
structure Admitted (me parties : Nat) (ids : List Nat) : Prop where
  nodup : ids.Nodup
  higher : ∀ id ∈ ids, me < id ∧ id < parties

/-- The links to the lower parties and to those that announced themselves, in the order of their
connections. -/
def linked (me parties : Nat) (ids : List Nat) : List (Option Connection) :=
  (range parties).map fun k => if k < me then some (made k) else (ids.idxOf? k).map accepted

/-- Exactly the link to the party itself is missing, and each higher party is linked by the
connection that announced it. -/
structure Complete (me parties : Nat) (ids : List Nat) (links : List (Option Connection)) :
    Prop where
  length_eq : links.length = parties
  own : links[me]? = some none
  lower : ∀ k < me, links[k]? = some (some (made k))
  higher : ∀ k, me < k → k < parties → ∃ i, ids[i]? = some k ∧ links[k]? = some (some (accepted i))

variable {me parties id : Nat} {ids : List Nat} {stream : Bytes} {streams : List Bytes}

theorem getElem?_linked {k : Nat} (hk : k < parties) : (linked me parties ids)[k]?
    = some (if k < me then some (made k) else (ids.idxOf? k).map accepted) := by
  rw [linked, getElem?_map, getElem?_range hk, Option.map_some]

theorem length_linked : (linked me parties ids).length = parties := by
  simp [linked]

theorem admitted_concat :
    Admitted me parties (ids ++ [id]) ↔ Admitted me parties ids ∧ ¬ Unwelcome me parties ids id := by
  rw [Unwelcome, not_or, not_or, not_le, not_le]
  constructor
  · rintro ⟨hnodup, hhigher⟩
    rw [← concat_eq_append, nodup_concat] at hnodup
    obtain ⟨hme, hparties⟩ := hhigher id (by simp)
    exact ⟨⟨hnodup.2, fun k hk => hhigher k (by simp [hk])⟩, hme, hparties, hnodup.1⟩
  · rintro ⟨⟨hnodup, hhigher⟩, hme, hparties, hid⟩
    refine ⟨by rw [← concat_eq_append, nodup_concat]; exact ⟨hid, hnodup⟩, fun k hk => ?_⟩
    rcases mem_append.mp hk with hk | hk
    · exact hhigher k hk
    · rw [mem_singleton.mp hk]
      exact ⟨hme, hparties⟩

theorem Admitted.of_append {seen : List Nat} (h : Admitted me parties (seen ++ ids)) :
    Admitted me parties seen :=
  ⟨h.nodup.of_append_left, fun id hid => h.higher id (mem_append_left _ hid)⟩

/-- The party that was announced last is linked by the last connection. -/
theorem set_linked (hme : me < id) (hid : id ∉ ids) :
    (linked me parties ids).set id (some (accepted ids.length)) = linked me parties (ids ++ [id]) := by
  refine ext_getElem? fun k => ?_
  rcases Nat.lt_or_ge k parties with hk | hk
  · rw [getElem?_set, getElem?_linked hk, getElem?_linked hk, length_linked]
    have happend : (ids ++ [id]).idxOf? k
        = (ids.idxOf? k).or (if id = k then some ids.length else none) := by
      simp [idxOf?, findIdx?_append, findIdx?_cons]
    by_cases h : id = k
    · subst h
      rw [if_pos rfl, if_pos hk, if_neg (by omega), happend, idxOf?_eq_none_iff.mpr hid,
        if_pos rfl]
      rfl
    · rw [if_neg h, happend, if_neg h, Option.or_none]
  · rw [getElem?_eq_none (by simpa [length_linked] using hk),
      getElem?_eq_none (by simpa [length_linked] using hk)]

theorem decode_announced (h : Announces stream id) :
    ∃ rest, Wire.count.decode stream = .ok (id, rest) := by
  obtain ⟨hid, rest, rfl⟩ := h
  exact ⟨rest, Wire.carries_count hid rest⟩

/-- A connection of a new higher party links it. -/
theorem welcome_of_not_unwelcome (h : Announces stream id) (hid : ¬ Unwelcome me parties ids id) :
    welcome me (linked me parties ids) ids.length stream
      = .ok (linked me parties (ids ++ [id])) := by
  obtain ⟨rest, hdecode⟩ := decode_announced h
  rw [Unwelcome, not_or, not_or, not_le, not_le] at hid
  obtain ⟨hme, hparties, hnew⟩ := hid
  simp only [welcome, hdecode]
  rw [if_neg (by omega), getElem?_linked hparties, if_neg (by omega),
    idxOf?_eq_none_iff.mpr hnew, ← set_linked hme hnew]
  rfl

/-- A connection that announces any other index is refused. -/
theorem welcome_of_unwelcome (h : Announces stream id) (hid : Unwelcome me parties ids id) :
    welcome me (linked me parties ids) ids.length stream = .error .invalidData := by
  obtain ⟨rest, hdecode⟩ := decode_announced h
  simp only [welcome, hdecode]
  split
  · rfl
  · next hme =>
      rcases hid with hid | hid | hid
      · exact absurd hid hme
      · rw [getElem?_eq_none (by rwa [length_linked])]
      · rcases Nat.lt_or_ge id parties with hparties | hparties
        · obtain ⟨i, hi⟩ := Option.isSome_iff_exists.mp (isSome_idxOf?.mpr hid)
          rw [getElem?_linked hparties, if_neg (by omega), hi]
          rfl
        · rw [getElem?_eq_none (by rwa [length_linked])]

/-- Connections that announce different higher parties are admitted one after the other. -/
theorem foldlM_welcome (seen : List Nat) (hstreams : Forall₂ Announces streams ids)
    (h : Admitted me parties (seen ++ ids)) :
    (streams.zipIdx seen.length).foldlM (fun links p => welcome me links p.2 p.1)
        (linked me parties seen) = .ok (linked me parties (seen ++ ids)) := by
  induction hstreams generalizing seen with
  | nil => rw [append_nil]; rfl
  | @cons stream id streams ids hstream _ ih =>
    rw [append_cons] at h ⊢
    have hid := (admitted_concat.mp h.of_append).2
    have hrest := ih _ h
    rw [length_append, length_singleton] at hrest
    rw [zipIdx_cons, foldlM_cons, welcome_of_not_unwelcome hstream hid]
    exact hrest

theorem establish_eq_foldlM (hme : me < parties) (streams : List Bytes) :
    establish me parties streams = (streams.take (parties - 1 - me)).zipIdx.foldlM
      (fun links p => welcome me links p.2 p.1) (linked me parties []) := by
  have hlower : lower me parties = linked me parties [] := rfl
  rw [establish, if_neg (by omega), hlower]

theorem subset_range' (h : ∀ id ∈ ids, me < id ∧ id < parties) :
    ids ⊆ range' (me + 1) (parties - 1 - me) := by
  intro id hid
  have := h id hid
  rw [mem_range'_1]
  omega

theorem Admitted.length_le (h : Admitted me parties ids) : ids.length ≤ parties - 1 - me := by
  simpa using (subperm_of_subset h.nodup (subset_range' h.higher)).length_le

theorem establish_of_admitted (hme : me < parties) (hstreams : Forall₂ Announces streams ids)
    (h : Admitted me parties ids) : establish me parties streams = .ok (linked me parties ids) := by
  rw [establish_eq_foldlM hme,
    take_of_length_le (hstreams.length_eq ▸ h.length_le)]
  exact foldlM_welcome [] hstreams h

/-- The first index that is not new or not that of a higher party ends it, whatever comes later. -/
theorem establish_of_unwelcome (hme : me < parties) (hstreams : Forall₂ Announces streams ids)
    (h : Admitted me parties ids) (hroom : ids.length < parties - 1 - me)
    (hstream : Announces stream id) (hid : Unwelcome me parties ids id) (later : List Bytes) :
    establish me parties (streams ++ stream :: later) = .error .invalidData := by
  have hlength := hstreams.length_eq
  obtain ⟨room, hroom⟩ := Nat.exists_eq_add_of_lt hroom
  rw [establish_eq_foldlM hme, hroom, ← hlength, Nat.add_assoc, take_length_add_append,
    take_succ_cons, zipIdx_append, foldlM_append]
  have hfront := foldlM_welcome [] hstreams h
  rw [length_nil] at hfront
  rw [hfront, zipIdx_cons]
  change (welcome me (linked me parties ids) (0 + streams.length) stream >>= _) = _
  rw [Nat.zero_add, hlength, welcome_of_unwelcome hstream hid]
  rfl

theorem exists_first_unwelcome (h : ¬ Admitted me parties ids) : ∃ seen id rest,
    ids = seen ++ id :: rest ∧ Admitted me parties seen ∧ Unwelcome me parties seen id := by
  induction ids using reverseRecOn with
  | nil => exact absurd ⟨nodup_nil, by simp⟩ h
  | append_singleton ids last ih =>
    by_cases hids : Admitted me parties ids
    · refine ⟨ids, last, [], rfl, hids, ?_⟩
      by_contra hlast
      exact h (admitted_concat.mpr ⟨hids, hlast⟩)
    · obtain ⟨seen, id, rest, rfl, hseen, hid⟩ := ih hids
      exact ⟨seen, id, rest ++ [last], by simp, hseen, hid⟩

/-- **As many different higher indices as there are higher parties are all of them.** -/
theorem perm_iff_admitted (hlength : ids.length = parties - 1 - me) :
    ids.Perm (range' (me + 1) (parties - 1 - me)) ↔ Admitted me parties ids := by
  constructor
  · intro h
    refine ⟨h.nodup_iff.mpr (nodup_range' ..), fun id hid => ?_⟩
    have := mem_range'_1.mp (h.mem_iff.mp hid)
    omega
  · intro h
    refine (subperm_of_subset h.nodup (subset_range' h.higher)).perm_of_length_le ?_
    rw [length_range', hlength]

theorem complete_linked (hme : me < parties)
    (h : ids.Perm (range' (me + 1) (parties - 1 - me))) :
    Complete me parties ids (linked me parties ids) where
  length_eq := length_linked
  own := by
    have hown : me ∉ ids := by
      rw [h.mem_iff, mem_range'_1]
      omega
    rw [getElem?_linked hme, if_neg (by omega), idxOf?_eq_none_iff.mpr hown]
    rfl
  lower k hk := by rw [getElem?_linked (by omega), if_pos hk]
  higher k hk hparties := by
    have hmem : k ∈ ids := by
      rw [h.mem_iff, mem_range'_1]
      omega
    obtain ⟨i, hi⟩ := Option.isSome_iff_exists.mp (isSome_idxOf?.mpr hmem)
    obtain ⟨hlt, hget, -⟩ := idxOf?_eq_some_iff.mp hi
    refine ⟨i, by rw [getElem?_eq_getElem hlt, hget], ?_⟩
    rw [getElem?_linked hparties, if_neg (by omega), hi]
    rfl

/-- A party with all its links takes part. -/
theorem Complete.ofLinks {links : List (Option Connection)} (h : Complete me parties ids links)
    (hme : me < parties) (htwo : 2 ≤ parties) :
    Player.ofLinks me (links.map (·.isSome)) = .ok ⟨me, parties⟩ := by
  have hnone : (links.map (·.isSome)).zipIdx.find? (fun p => (p.2 == me) == p.1) = none := by
    rw [find?_eq_none]
    rintro ⟨there, k⟩ hp
    have hk := mk_mem_zipIdx_iff_getElem?.mp hp
    rw [getElem?_map] at hk
    obtain ⟨link, hlink, rfl⟩ := Option.map_eq_some_iff.mp hk
    rcases Nat.lt_trichotomy k me with hlt | rfl | hgt
    · rw [h.lower k hlt] at hlink
      cases hlink
      simp [Nat.ne_of_lt hlt]
    · rw [h.own] at hlink
      cases hlink
      simp
    · have hparties : k < parties := by
        rw [← h.length_eq]
        exact (List.getElem?_eq_some_iff.mp hlink).1
      obtain ⟨i, -, hi⟩ := h.higher k hgt hparties
      rw [hi] at hlink
      cases hlink
      simp [Nat.ne_of_gt hgt]
  have hlength : (links.map (·.isSome)).length = parties := by rw [length_map, h.length_eq]
  rw [Player.ofLinks, hnone, hlength, if_neg (by omega)]

theorem exists_announced {seen rest : List Nat}
    (h : Forall₂ Announces streams (seen ++ id :: rest)) :
    ∃ stream, Forall₂ Announces (streams.take seen.length) seen ∧ Announces stream id ∧
      streams.take (seen.length + 1) = streams.take seen.length ++ [stream] := by
  obtain ⟨stream, later, hstream, -, hdrop⟩ :=
    forall₂_cons_right_iff.mp (forall₂_drop_append _ _ _ h)
  refine ⟨stream, forall₂_take_append _ _ _ h, hstream, ?_⟩
  rw [take_add, hdrop]
  rfl

/-- **Exactly the complete sets of peers are linked, in any order.**  Let the connections to a party
announce any indices, at least as many as there are higher parties.  All links are made if and only
if the first of them are the higher parties in some order; then each party is linked by the
connection that was made to it or that announced it, and the party can take part.  Otherwise the
first index that is too small, too large or repeated is refused: the connections before it were
admitted, and those after it do not matter. -/
theorem establish_complete (hme : me < parties) (hstreams : Forall₂ Announces streams ids)
    (hcount : parties - 1 - me ≤ ids.length) :
    ((∃ links, establish me parties streams = .ok links) ↔
      (ids.take (parties - 1 - me)).Perm (range' (me + 1) (parties - 1 - me))) ∧
    (∀ links, establish me parties streams = .ok links →
      Complete me parties (ids.take (parties - 1 - me)) links ∧
      (2 ≤ parties → Player.ofLinks me (links.map (·.isSome)) = .ok ⟨me, parties⟩)) ∧
    (¬ (ids.take (parties - 1 - me)).Perm (range' (me + 1) (parties - 1 - me)) →
      establish me parties streams = .error .invalidData ∧
      ∃ seen id rest, ids.take (parties - 1 - me) = seen ++ id :: rest ∧
        Admitted me parties seen ∧ Unwelcome me parties seen id ∧
        establish me parties (streams.take seen.length) = .ok (linked me parties seen) ∧
        ∀ later, establish me parties (streams.take (seen.length + 1) ++ later)
          = .error .invalidData) := by
  rw [perm_iff_admitted (length_take_of_le hcount)]
  by_cases h : Admitted me parties (ids.take (parties - 1 - me))
  · have hlinked := establish_of_admitted hme (forall₂_take (parties - 1 - me) hstreams) h
    rw [establish_eq_foldlM hme, take_take, Nat.min_self, ← establish_eq_foldlM hme] at hlinked
    refine ⟨⟨fun _ => h, fun _ => ⟨_, hlinked⟩⟩, fun links hlinks => ?_, fun hno => absurd h hno⟩
    obtain rfl := Except.ok.inj (hlinked.symm.trans hlinks)
    have hcomplete := complete_linked hme
      ((perm_iff_admitted (length_take_of_le hcount)).mpr h)
    exact ⟨hcomplete, hcomplete.ofLinks hme⟩
  · obtain ⟨seen, id, rest, hids, hseen, hid⟩ := exists_first_unwelcome h
    have hroom : seen.length < parties - 1 - me := by
      have hlength := congrArg length hids
      rw [length_take_of_le hcount, length_append, length_cons] at hlength
      omega
    rw [← take_append_drop (parties - 1 - me) ids, hids, append_assoc,
      cons_append] at hstreams
    obtain ⟨stream, hfront, hstream, hnext⟩ := exists_announced hstreams
    have herror : ∀ later, establish me parties (streams.take (seen.length + 1) ++ later)
        = .error .invalidData := by
      intro later
      rw [hnext, append_assoc]
      exact establish_of_unwelcome hme hfront hseen hroom hstream hid later
    have hall := herror (streams.drop (seen.length + 1))
    rw [take_append_drop] at hall
    refine ⟨⟨fun ⟨links, hlinks⟩ => ?_, fun hyes => absurd hyes h⟩, fun links hlinks => ?_,
      fun _ => ⟨hall, seen, id, rest, hids, hseen, hid, ?_, herror⟩⟩
    · cases hall.symm.trans hlinks
    · cases hall.symm.trans hlinks
    · exact establish_of_admitted hme hfront hseen

/-- Party 1 of 4 is reached first by party 3 and then by party 2; a second party 3 is refused. -/
theorem establish_complete_crossed :
    Forall₂ Announces [announcement 3 ++ [7], announcement 2] [3, 2] ∧
    (∃ links, establish 1 4 [announcement 3 ++ [7], announcement 2] = .ok links ∧
      Player.ofLinks 1 (links.map (·.isSome)) = .ok ⟨1, 4⟩) ∧
    Forall₂ Announces [announcement 3, announcement 3] [3, 3] ∧
    establish 1 4 [announcement 3, announcement 3] = .error .invalidData := by
  have hcrossed : Forall₂ Announces [announcement 3 ++ [7], announcement 2] [3, 2] :=
    .cons ⟨by decide, [7], rfl⟩ (.cons ⟨by decide, [], rfl⟩ .nil)
  have htwice : Forall₂ Announces [announcement 3, announcement 3] [3, 3] :=
    .cons ⟨by decide, [], rfl⟩ (.cons ⟨by decide, [], rfl⟩ .nil)
  have hok := establish_complete (by decide : 1 < 4) hcrossed (by decide)
  have herror := establish_complete (by decide : 1 < 4) htwice (by decide)
  obtain ⟨links, hlinks⟩ := hok.1.mpr (by decide)
  exact ⟨hcrossed, ⟨links, hlinks, (hok.2.1 links hlinks).2 (by decide)⟩, htwice,
    (herror.2.2 (by decide)).1⟩

end Connection

end Beaver
