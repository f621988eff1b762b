import Mathlib
import Beaver.Proofs.Multiplier.Jobs
import Beaver.Proofs.NetworkRun
import Beaver.Proofs.Transfer.Sessions

/-!
# Sessions of two multipliers

Consistent seeds of base transfers bring two multipliers in step, with or without keys
(`meets_setup`).  From there they can run any jobs one after the other: each job gives
shares of what it is for, whatever came before it (`session_computes`).
-/

namespace Beaver

open Session (start_bind_of_done start_check_ok)
open List
open ShareRing LinearEvaluation

namespace Transfer

/-- The keys that were received are the chosen ones of those that were sent. -/
theorem Transferred.eq_chosenKeys {bs : List Bool} {received : List Block}
    {sent : List (Block × Block)} (h : Transferred (.ofBits bs) received sent) :
    received = chosenKeys sent bs := by
  have hreceived := h.received_eq (BitString.wellFormed_ofBits bs)
  rwa [BitString.bits_ofBits] at hreceived

/-- What two parties know after base transfers in both directions: each has received the
streams that it chose from those the other sent. -/
structure Seeds.Consistent (s s' : Seeds) : Prop where
  sent : s.sent.length = 128
  sent' : s'.sent.length = 128
  choices : s.choices.length = 128
  choices' : s'.choices.length = 128
  received : s.received = chosenKeys s'.sent s.choices.bits
  received' : s'.received = chosenKeys s.sent s'.choices.bits

/-- Seeds that were dealt as pairs are consistent. -/
theorem Seeds.consistent_ofPairs {pairs pairs' : List (Block × Block)} {choices choices' : BitString}
    (hpairs : pairs.length = 128) (hpairs' : pairs'.length = 128) (hchoices : choices.length = 128)
    (hchoices' : choices'.length = 128) :
    (ofPairs pairs pairs' choices).Consistent (ofPairs pairs' pairs choices') where
  sent := (length_map _).trans hpairs
  sent' := (length_map _).trans hpairs'
  choices := hchoices
  choices' := hchoices'
  received := map_chosenKeys pairs' choices.bits
  received' := map_chosenKeys pairs choices'.bits

theorem Receiver.eq_of_ofSeeds {seeds : List (Keystream × Keystream)} {passive : Bool} {r : Receiver}
    (h : ofSeeds seeds passive = .ok r) : r.zeros = seeds.map (·.1) ∧ r.counter = 0 := by
  rw [ofSeeds, checkLength] at h
  split at h
  · cases h
    exact ⟨rfl, rfl⟩
  · cases h

theorem Sender.eq_of_ofSeeds {delta : BitString} {seeds : List Keystream} {passive : Bool} {s : Sender}
    (h : ofSeeds delta seeds passive = .ok s) : s.delta = (delta.block? 0).getD .zero := by
  rw [ofSeeds, checkLength, checkLength] at h
  split at h
  · split at h
    · cases h
      rfl
    · cases h
  · cases h

end Transfer

namespace Multiplier

/-- The streams for evaluations under a key: they come from transfers for the bits of the key,
which the party with these choices sends to the party that sent these seeds. -/
def keyColumns {μ : Type} [ShareRing μ] (sent : List (Keystream × Keystream)) (choices : BitString)
    (key : μ) : Columns :=
  .ofList (Transfer.pairStreams (Transfer.sentBlocks 0 (sent.map (·.1))
    ((choices.block? 0).getD .zero) (.ofBits (elementBits key))))

/-- The evaluations of two parties with these seeds and keys. -/
def Evaluations.ofSeeds {μ : Type} [ShareRing μ] (s s' : Transfer.Seeds) (keys : μ × μ) :
    Evaluations μ where
  key := keys.1
  key' := keys.2
  mine := keyColumns s'.sent s.choices keys.2
  theirs := keyColumns s.sent s'.choices keys.1

section Setup

variable {r : RingName} {passive : Bool} {i j : Nat} {l l' : LinkEnd}

theorem hasRoom_bits (r : RingName) : Transfer.HasRoom (bits r.Carrier) := by
  cases r <;> decide

/-- The evaluations that transfers between two multipliers set up. -/
def Evaluations.ofTransfers {μ : Type} [ShareRing μ] (m m' : Multiplier μ) (key key' : μ) :
    Evaluations μ where
  key := key
  key' := key'
  mine := .ofList (Transfer.pairStreams (Transfer.sentBlocks m'.receiver.counter m'.receiver.zeros
    m.sender.delta (.ofBits (elementBits key'))))
  theirs := .ofList (Transfer.pairStreams (Transfer.sentBlocks m.receiver.counter m.receiver.zeros
    m'.sender.delta (.ofBits (elementBits key))))

/-- Both ends of an evaluation, from transfers for the bits of the key. -/
theorem holders_of_transferred {key : r.Carrier} {received : List Block} {sent : List (Block × Block)}
    (h : Transfer.Transferred (.ofBits (elementBits key)) received sent) (passive : Bool) :
    InputHolder.ofSeeds r.Carrier sent passive
        = .ok (.ofColumns r.Carrier passive (.ofList (Transfer.pairStreams sent))) ∧
      KeyHolder.ofSeeds key received passive
        = .ok (.ofColumns passive key (.ofList (Transfer.pairStreams sent))) := by
  have hlength : sent.length = bits r.Carrier :=
    h.length_sent.trans (by simp [BitString.ofBits, elementBits])
  refine ⟨InputHolder.ofSeeds_eq hlength passive, ?_⟩
  rw [h.eq_chosenKeys]
  exact KeyHolder.ofSeeds_eq hlength key passive

/-- The transfers for the bits of a key. -/
theorem meets_keyBits {m m' : Multiplier r.Carrier}
    (h : Transfer.Paired m.receiver m'.sender) (hl : LinkEnd.Joined i j l l') (key : r.Carrier)
    (t u : Tape) :
    Meets i j (Succeed fun received sent m₁ m₁' =>
        (Transfer.Transferred (.ofBits (elementBits key)) received sent ∧
          sent = Transfer.sentBlocks m.receiver.counter m.receiver.zeros m'.sender.delta
            (.ofBits (elementBits key))) ∧ Transferring m m' m₁ m₁')
      ((receiving (Transfer.Receiver.receive l (.ofBits (elementBits key)))).start m)
      ((sending (Transfer.Sender.send l' (bits r.Carrier))).start m') [] [] t u := by
  have hlength : (BitString.ofBits (elementBits key)).length = bits r.Carrier := by
    simp [BitString.ofBits, elementBits]
  have hmeets := meets_transfer h hl (BitString.wellFormed_ofBits (elementBits key))
    (hlength ▸ hasRoom_bits r) t u
  rw [hlength] at hmeets
  exact hmeets.imp fun _ _ _ _ hc => ⟨⟨hc.1, hc.2.1⟩, hc.2.2⟩

/-- **Setting up the keys.** -/
theorem Linked.meets_setupKey {m m' : Multiplier r.Carrier} (h : Linked passive none m m')
    (hl : LinkEnd.Joined i j l l') (key key' : r.Carrier) (t u : Tape) :
    Meets i j (Succeed fun _ _ m₁ m₁' =>
        Linked passive (some (Evaluations.ofTransfers m m' key key')) m₁ m₁')
      ((setupKey l key passive).start m) ((setupKey l' key' passive).start m') [] [] t u := by
  -- before a direction is done, its ends are as they were
  let I (p q : Bool) (x y : Multiplier r.Carrier) : Prop := Linked passive none x y ∧
    (p = false → x.receiver = m.receiver ∧ y.sender = m'.sender) ∧
    (q = false → y.receiver = m'.receiver ∧ x.sender = m.sender)
  have hfirst : ∀ q x y t u, I false q x y → Meets i j (Succeed fun received sent x' y' =>
      (Transfer.Transferred (.ofBits (elementBits key)) received sent ∧
        sent = Transfer.sentBlocks m.receiver.counter m.receiver.zeros m'.sender.delta
          (.ofBits (elementBits key))) ∧ I true q x' y')
      ((Multiplier.receiving (Transfer.Receiver.receive l (.ofBits (elementBits key)))).start x)
      ((Multiplier.sending (Transfer.Sender.send l' (bits r.Carrier))).start y) [] [] t u := by
    intro q x y t u hI
    obtain ⟨hlinked, hstart, hother⟩ := hI
    have hmeets := meets_keyBits hlinked.receiving hl key t u
    rw [(hstart rfl).1, (hstart rfl).2] at hmeets
    refine hmeets.imp fun received sent x' y' hc => ⟨hc.1, hlinked.transferring hc.2, nofun, ?_⟩
    obtain ⟨receiver, sender, -, rfl, rfl⟩ := hc.2
    exact hother
  have hsecond : ∀ p x y t u, I p false x y → Meets i j (Succeed fun sent received x' y' =>
      (Transfer.Transferred (.ofBits (elementBits key')) received sent ∧
        sent = Transfer.sentBlocks m'.receiver.counter m'.receiver.zeros m.sender.delta
          (.ofBits (elementBits key'))) ∧ I p true x' y')
      ((Multiplier.sending (Transfer.Sender.send l (bits r.Carrier))).start x)
      ((Multiplier.receiving (Transfer.Receiver.receive l' (.ofBits (elementBits key')))).start y)
      [] [] t u := by
    intro p x y t u hI
    obtain ⟨hlinked, hother, hstart⟩ := hI
    have hmeets := (meets_keyBits hlinked.sending hl.symm key' u t).flip
    rw [(hstart rfl).1, (hstart rfl).2] at hmeets
    refine hmeets.imp fun sent received x' y' hc => ⟨hc.1,
      linked_swap.mp ((linked_swap.mpr hlinked).transferring hc.2), ?_, nofun⟩
    obtain ⟨receiver, sender, -, rfl, rfl⟩ := hc.2
    exact hother
  rw [setupKey, setupKey]
  refine (meets_inOrder hl hfirst hsecond ⟨h, fun _ => ⟨rfl, rfl⟩, fun _ => ⟨rfl, rfl⟩⟩ t u).andThen ?_
  rintro ⟨received, sent⟩ ⟨received', sent'⟩ x y t u ⟨⟨htheirs, rfl⟩, ⟨hmine, rfl⟩, hlinked, -, -⟩
  obtain ⟨hinput, hkey'⟩ := holders_of_transferred hmine passive
  obtain ⟨hinput', hkey⟩ := holders_of_transferred htheirs passive
  dsimp only
  rw [hinput, hkey, hinput', hkey', start_bind_of_done (start_check_ok _ _),
    start_bind_of_done (start_check_ok _ _),
    start_bind_of_done (start_check_ok _ _),
    start_bind_of_done (start_check_ok _ _)]
  exact .done ⟨(), (), _, _, rfl, rfl, hlinked.receiving, hlinked.sending, rfl, rfl⟩

/-- **Setting up from consistent seeds.** -/
theorem meets_setup {σ σ' : Type} {s s' : Transfer.Seeds} (hs : s.Consistent s')
    (hl : LinkEnd.Joined i j l l') (keys : Option (r.Carrier × r.Carrier)) (passive : Bool)
    (x : σ) (y : σ') (t u : Tape) :
    Meets i j (Succeed fun m m' x' y' =>
        Linked passive (keys.map (Evaluations.ofSeeds s s')) m m' ∧ x' = x ∧ y' = y)
      ((setup l s (keys.map (·.1)) passive).start x) ((setup l' s' (keys.map (·.2)) passive).start y)
      [] [] t u := by
  obtain ⟨receiver, sender', hreceiver, hsender', hpaired, -⟩ :=
    Transfer.paired_ofSeeds hs.sent hs.choices' passive
  obtain ⟨receiver', sender, hreceiver', hsender, hpaired', -⟩ :=
    Transfer.paired_ofSeeds hs.sent' hs.choices passive
  have hlinked : Linked passive none (⟨receiver, sender, none⟩ : Multiplier r.Carrier)
      ⟨receiver', sender', none⟩ := ⟨hpaired, hpaired', rfl, rfl⟩
  rw [setup, setup, hs.received, hs.received', hreceiver, hreceiver', hsender, hsender',
    start_bind_of_done (start_check_ok _ _),
    start_bind_of_done (start_check_ok _ _),
    start_bind_of_done (start_check_ok _ _),
    start_bind_of_done (start_check_ok _ _)]
  cases keys with
  | none => exact .done ⟨_, _, x, y, rfl, rfl, hlinked, rfl, rfl⟩
  | some keys =>
    have hsame : Evaluations.ofTransfers (⟨receiver, sender, none⟩ : Multiplier r.Carrier)
        ⟨receiver', sender', none⟩ keys.1 keys.2 = Evaluations.ofSeeds s s' keys := by
      rw [Evaluations.ofTransfers, Evaluations.ofSeeds, keyColumns, keyColumns,
        (Transfer.Receiver.eq_of_ofSeeds hreceiver).1, (Transfer.Receiver.eq_of_ofSeeds hreceiver).2,
        (Transfer.Receiver.eq_of_ofSeeds hreceiver').1,
        (Transfer.Receiver.eq_of_ofSeeds hreceiver').2, Transfer.Sender.eq_of_ofSeeds hsender,
        Transfer.Sender.eq_of_ofSeeds hsender']
    refine ((hlinked.meets_setupKey hl keys.1 keys.2 t u).borrow x y).andThen ?_
    rintro ⟨_, m⟩ ⟨_, m'⟩ _ _ t u ⟨hlinked, rfl, rfl⟩
    rw [hsame] at hlinked
    exact .done ⟨m, m', _, _, rfl, rfl, hlinked, rfl, rfl⟩

end Setup

section Session

variable {r v : RingName} [Lift v.Carrier r.Carrier] {passive : Bool}
variable {i j : Nat} {l l' : LinkEnd} {m m' : Multiplier r.Carrier}

theorem Passing.of_append {s : Columns} {ns ns' : List Nat}
    (h : Passing passive r.Carrier s (ns ++ ns')) :
    Passing passive r.Carrier s ns ∧ Passing passive r.Carrier (ns.foldl Columns.advance s) ns' := by
  refine ⟨fun hp => ⟨fun hns => (h hp).1 ?_, (separatedIn_append.mp (h hp).2).1⟩,
    fun hp => ⟨fun hns => (h hp).1 ?_, (separatedIn_append.mp (h hp).2).2⟩⟩
  · simp [hns]
  · simp [hns]

/-- The two ends of a link, when evaluations of the given lengths are still to come for the
inputs of either end. -/
def Ready {μ : Type} [ShareRing μ] (passive : Bool) (keys : Option (μ × μ)) (mine theirs : List Nat)
    (m m' : Multiplier μ) : Prop :=
  ∃ e, Linked passive e m m' ∧ e.map (·.keys) = keys ∧
    ∀ e₀ ∈ e, Passing passive μ e₀.mine mine ∧ Passing passive μ e₀.theirs theirs

variable {keys : Option (r.Carrier × r.Carrier)} {mine theirs : List Nat}

/-- **One job after the other** gives shares of what it is for, and leaves the ends ready for
the next one. -/
theorem Ready.meets_process {job job' : Job v.Carrier}
    (h : Ready passive keys (job.evaluations l.me ++ mine) (job.evaluations l.peer ++ theirs) m m')
    (hl : LinkEnd.Joined i j l l') (hmatching : Matching job job') (hroom : job.HasRoom r.Carrier)
    (hkeys : job.tagging = true → keys.isSome = true) (t u : Tape) :
    Meets i j (Succeed fun o o' m₁ m₁' => Computes l.me l.peer keys job job' o o' ∧
        Ready passive keys mine theirs m₁ m₁')
      ((process l job).start m) ((process l' job').start m') [] [] t u := by
  obtain ⟨e, hlinked, rfl, hpassing⟩ := h
  have hfirst : ∀ e₀ ∈ e, Passing passive r.Carrier e₀.mine (job.evaluations l.me) ∧
      Passing passive r.Carrier e₀.theirs (job.evaluations l.peer) :=
    fun e₀ he₀ => ⟨(hpassing e₀ he₀).1.of_append.1, (hpassing e₀ he₀).2.of_append.1⟩
  refine (hlinked.meets_process hl hmatching hroom (by simpa using hkeys) hfirst t u).imp
    fun o o' m₁ m₁' hc => ⟨hc.1, _, hc.2, ?_, fun e₁ he₁ => ?_⟩
  · rw [Option.map_map]
    rfl
  · obtain ⟨e₀, he₀, rfl⟩ := Option.mem_map.mp he₁
    exact ⟨(hpassing e₀ he₀).1.of_append.2, (hpassing e₀ he₀).2.of_append.2⟩

/-- **Jobs follow each other.** -/
theorem Ready.meets_jobs {jobs : List (Job v.Carrier × Job v.Carrier)}
    (h : Ready passive keys (jobs.flatMap (·.1.evaluations l.me))
      (jobs.flatMap (·.1.evaluations l.peer)) m m') (hl : LinkEnd.Joined i j l l')
    (hjobs : ∀ p ∈ jobs, Matching p.1 p.2 ∧ p.1.HasRoom r.Carrier ∧
      (p.1.tagging = true → keys.isSome = true)) (t u : Tape) :
    Meets i j (Succeed fun outs outs' _ _ => outs.length = jobs.length ∧
        outs'.length = jobs.length ∧ ∀ (k : Nat) p o o', jobs[k]? = some p → outs[k]? = some o →
          outs'[k]? = some o' → Computes l.me l.peer keys p.1 p.2 o o')
      (((jobs.map (·.1)).mapM (process l)).start m)
      (((jobs.map (·.2)).mapM (process l')).start m') [] [] t u := by
  induction jobs generalizing m m' t u with
  | nil => exact .done ⟨[], [], m, m', rfl, rfl, rfl, rfl, fun _ _ _ _ hp => by cases hp⟩
  | cons p jobs ih =>
    obtain ⟨hmatching, hroom, hkeys⟩ := hjobs p mem_cons_self
    rw [map_cons, map_cons, mapM_cons, mapM_cons]
    rw [flatMap_cons, flatMap_cons] at h
    refine (h.meets_process hl hmatching hroom hkeys t u).andThen
      fun o o' m₁ m₁' t u ⟨hcomputes, hready⟩ => ?_
    refine (ih hready (fun q hq => hjobs q (mem_cons_of_mem p hq)) t u).andThen
      fun os os' x y t u ⟨hlength, hlength', hrest⟩ => ?_
    refine .done ⟨o :: os, o' :: os', x, y, rfl, rfl, congrArg (· + 1) hlength,
      congrArg (· + 1) hlength', fun k q b b' hq hb hb' => ?_⟩
    cases k with
    | zero =>
      cases hq
      cases hb
      cases hb'
      exact hcomputes
    | succ k => exact hrest k q b b' hq hb hb'

/-- Consistent seeds make the two ends ready for evaluations that pass on their streams. -/
theorem meets_setup_ready {σ σ' : Type} {s s' : Transfer.Seeds} (hs : s.Consistent s')
    (hl : LinkEnd.Joined i j l l')
    (hpassing : ∀ k ∈ keys, Passing passive r.Carrier (keyColumns s'.sent s.choices k.2) mine ∧
      Passing passive r.Carrier (keyColumns s.sent s'.choices k.1) theirs)
    (x : σ) (y : σ') (t u : Tape) :
    Meets i j (Succeed fun m m' x' y' => Ready passive keys mine theirs m m' ∧ x' = x ∧ y' = y)
      ((setup l s (keys.map (·.1)) passive).start x) ((setup l' s' (keys.map (·.2)) passive).start y)
      [] [] t u := by
  refine (meets_setup hs hl keys passive x y t u).imp fun m m' x' y' hc => ⟨⟨_, hc.1, ?_, ?_⟩, hc.2⟩
  · rw [Option.map_map]
    exact Option.map_id'
  · intro e he
    obtain ⟨k, hk, rfl⟩ := Option.mem_map.mp he
    exact hpassing k hk

/-- Sets up a multiplier and runs jobs with it. -/
def session {τ μ : Type} [ShareRing τ] [ShareRing μ] [Lift τ μ] (l : LinkEnd) (s : Transfer.Seeds)
    (key : Option μ) (passive : Bool) (jobs : List (Job τ)) : Session Unit (List (Output τ μ)) := do
  let m ← setup l s key passive
  let (outs, _) ← (jobs.mapM (process l)).borrow m
  pure outs

/-- **Sessions of two honest multipliers.**  From consistent seeds, with or without keys,
matching jobs in any mix and of any lengths succeed, whatever coins the two ends have, and
every job gives shares of what it is for, whatever came before it.  For the inputs of another
party an end does nothing at all. -/
theorem session_computes {s s' : Transfer.Seeds} (hs : s.Consistent s')
    (hl : LinkEnd.Joined 0 1 l l') (keys : Option (r.Carrier × r.Carrier)) (passive : Bool)
    {jobs : List (Job v.Carrier × Job v.Carrier)}
    (hjobs : ∀ p ∈ jobs, Matching p.1 p.2 ∧ p.1.HasRoom r.Carrier ∧
      (p.1.tagging = true → keys.isSome = true))
    (hpassing : ∀ k ∈ keys,
      Passing passive r.Carrier (keyColumns s'.sent s.choices k.2)
        (jobs.flatMap (·.1.evaluations l.me)) ∧
      Passing passive r.Carrier (keyColumns s.sent s'.choices k.1)
        (jobs.flatMap (·.1.evaluations l.peer))) :
    (∀ c d : Coins, ∃ outs outs' net,
      (Network.ofCoins [c, d]).runPair .honest
          ((session l s (keys.map (·.1)) passive (jobs.map (·.1))).start ())
          ((session l' s' (keys.map (·.2)) passive (jobs.map (·.2))).start ())
        = (some (.ok outs, ()), some (.ok outs', ()), net) ∧
      outs.length = jobs.length ∧ outs'.length = jobs.length ∧
      ∀ (k : Nat) p o o', jobs[k]? = some p → outs[k]? = some o → outs'[k]? = some o' →
        Computes l.me l.peer keys p.1 p.2 o o') ∧
    ∀ (m : Multiplier r.Carrier) owner (xs : List v.Carrier), owner ≠ l.me → owner ≠ l.peer →
      (process l (.input owner xs)).start m
        = .done (.ok (.tags (replicate xs.length 0)), m) := by
  refine ⟨fun c d => ?_, fun m owner xs hme hpeer => ?_⟩
  · have hmeets : Meets 0 1 (Succeed fun outs outs' _ _ => outs.length = jobs.length ∧
        outs'.length = jobs.length ∧ ∀ (k : Nat) p o o', jobs[k]? = some p → outs[k]? = some o →
          outs'[k]? = some o' → Computes l.me l.peer keys p.1 p.2 o o')
        ((session l s (keys.map (·.1)) passive (jobs.map (·.1))).start ())
        ((session l' s' (keys.map (·.2)) passive (jobs.map (·.2))).start ())
        [] [] c.tape d.tape := by
      rw [session, session]
      refine (meets_setup_ready hs hl hpassing () () c.tape d.tape).andThen
        fun m m' _ _ t u ⟨hready, _, _⟩ => ?_
      refine ((hready.meets_jobs hl hjobs t u).borrow () ()).andThen
        fun outs outs' _ _ t u ⟨hresults, _, _⟩ => ?_
      exact .done ⟨outs.1, outs'.1, (), (), rfl, rfl, hresults⟩
    obtain ⟨_, _, _, _, net, ⟨outs, outs', _, _, rfl, rfl, hresults⟩, hrun⟩ :=
      Network.runPair_honest hmeets
    exact ⟨outs, outs', net, hrun, hresults⟩
  · rw [process, authenticateInput_others hme hpeer]
    rfl

/-- Seeds of two parties that always choose the second key. -/
def sampleSeeds : Transfer.Seeds :=
  .ofPairs (replicate 128 (.zero, Block.ofNat 1)) (replicate 128 (.zero, Block.ofNat 1))
    (.ofBits (replicate 128 true))

theorem consistent_sampleSeeds : sampleSeeds.Consistent sampleSeeds :=
  Transfer.Seeds.consistent_ofPairs length_replicate length_replicate length_replicate
    length_replicate

/-- All kinds of jobs. -/
def sampleJobs : List (Job Word64 × Job Word64) :=
  [(.triple [1, 0] [1, 1], .triple [1, 1] [0, 1]), (.authenticate [1, 0, 1], .authenticate [1, 1, 1]),
    (.input 3 [1], .input 3 [0]), (.square [1], .square [1]), (.input 8 [0, 0], .input 8 [1, 1]),
    (.input 5 [0], .input 5 [0]), (.authenticate [], .authenticate [])]

theorem fitting_sampleJobs : ∀ p ∈ sampleJobs, Matching p.1 p.2 ∧ p.1.HasRoom Word128 ∧
    (p.1.tagging = true → (some ((1, 1) : Word128 × Word128)).isSome = true) := by
  have htags : ∀ n ≤ 3, n * bytes Word128 < memoryLimit := by decide
  have hproducts : ∀ n ≤ 2, Transfer.HasRoom (n * bits Word64) := by decide
  intro p hp
  simp only [sampleJobs, mem_cons, not_mem_nil, or_false] at hp
  rcases hp with rfl | rfl | rfl | rfl | rfl | rfl | rfl
  · exact ⟨.triple rfl rfl rfl, hproducts 2 (by decide), fun _ => rfl⟩
  · exact ⟨.authenticate rfl, htags 3 (by decide), fun _ => rfl⟩
  · exact ⟨.input 3 rfl, htags 1 (by decide), fun _ => rfl⟩
  · exact ⟨.square rfl, hproducts 1 (by decide), fun _ => rfl⟩
  · exact ⟨.input 8 rfl, htags 2 (by decide), fun _ => rfl⟩
  · exact ⟨.input 5 rfl, htags 1 (by decide), fun _ => rfl⟩
  · exact ⟨.authenticate rfl, htags 0 (by decide), fun _ => rfl⟩

/-- Jobs that are checked, without values to be tagged. -/
def checkedJobs : List (Job Mersenne61 × Job Mersenne61) :=
  [(.authenticate [], .authenticate []), (.triple [1] [0], .triple [0] [1]), (.input 3 [], .input 3 []),
    (.input 8 [], .input 8 [])]

theorem fitting_checkedJobs : ∀ p ∈ checkedJobs, Matching p.1 p.2 ∧ p.1.HasRoom Mersenne61 ∧
    (p.1.tagging = true → (some ((1, 1) : Mersenne61 × Mersenne61)).isSome = true) := by
  have htags : 0 * bytes Mersenne61 < memoryLimit := by decide
  have hproducts : Transfer.HasRoom (1 * bits Mersenne61) := by decide
  intro p hp
  simp only [checkedJobs, mem_cons, not_mem_nil, or_false] at hp
  rcases hp with rfl | rfl | rfl | rfl
  · exact ⟨.authenticate rfl, htags, fun _ => rfl⟩
  · exact ⟨.triple rfl rfl rfl, hproducts, fun _ => rfl⟩
  · exact ⟨.input 3 rfl, htags, fun _ => rfl⟩
  · exact ⟨.input 8 rfl, htags, fun _ => rfl⟩

theorem distinct_empty : ∀ i < 61,
    (PairDigests.ofFn fun a b => pairDigest i a b (⟨[]⟩ : Row Mersenne61)).distinct = true := by
  decide +kernel

/-- The digests of rows without elements do not depend on the streams. -/
theorem separated_empty (s : Columns) : Separated Mersenne61 s 0 := by
  intro i first second hi hfirst hsecond _
  rw [digests_rowsOf hfirst hsecond]
  exact distinct_empty i hi

/-- Jobs of all kinds without checks, and jobs with checks. -/
theorem session_computes_sample :
    (∀ c d : Coins, ∃ outs outs' net, (Network.ofCoins [c, d]).runPair .honest
          ((session ⟨1, 3, 8⟩ sampleSeeds (some (1 : Word128)) true (sampleJobs.map (·.1))).start ())
          ((session ⟨0, 8, 3⟩ sampleSeeds (some (1 : Word128)) true (sampleJobs.map (·.2))).start ())
        = (some (.ok outs, ()), some (.ok outs', ()), net) ∧
      ∀ (k : Nat) p o o', sampleJobs[k]? = some p → outs[k]? = some o → outs'[k]? = some o' →
        Computes 3 8 (some (1, 1)) p.1 p.2 o o') ∧
    ∀ c d : Coins, ∃ outs outs' net, (Network.ofCoins [c, d]).runPair .honest
          ((session ⟨1, 3, 8⟩ sampleSeeds (some (1 : Mersenne61)) false (checkedJobs.map (·.1))).start ())
          ((session ⟨0, 8, 3⟩ sampleSeeds (some (1 : Mersenne61)) false (checkedJobs.map (·.2))).start ())
        = (some (.ok outs, ()), some (.ok outs', ()), net) ∧
      ∀ (k : Nat) p o o', checkedJobs[k]? = some p → outs[k]? = some o → outs'[k]? = some o' →
        Computes 3 8 (some (1, 1)) p.1 p.2 o o' := by
  have hpassing : ∀ s, Passing false Mersenne61 s [0, 0] := fun s _ =>
    ⟨fun _ => by decide, separated_empty s, separated_empty _, trivial⟩
  constructor
  · intro c d
    obtain ⟨outs, outs', net, hrun, -, -, hcomputes⟩ := (@session_computes .word128 .word64 _ _ _ _ _
      consistent_sampleSeeds (LinkEnd.joined_mk (by decide : 3 ≠ 8)) (some (1, 1)) true sampleJobs
      fitting_sampleJobs fun _ _ => ⟨nofun, nofun⟩).1 c d
    exact ⟨outs, outs', net, hrun, hcomputes⟩
  · intro c d
    obtain ⟨outs, outs', net, hrun, -, -, hcomputes⟩ := (@session_computes .mersenne61 .mersenne61 _ _
      _ _ _ consistent_sampleSeeds (LinkEnd.joined_mk (by decide : 3 ≠ 8)) (some (1, 1)) false checkedJobs
      fitting_checkedJobs fun _ _ => ⟨hpassing _, hpassing _⟩).1 c d
    exact ⟨outs, outs', net, hrun, hcomputes⟩

end Session

end Multiplier

end Beaver
