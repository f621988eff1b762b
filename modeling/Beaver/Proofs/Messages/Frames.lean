import Mathlib
import Beaver.Config
import Beaver.Connection.Frame
import Beaver.Proofs.Batching
import Beaver.Proofs.Messages.Multipliers
import Beaver.Transfer.Base
import Beaver.Transfer.Ristretto

/-!
# No honest message is too long

The parameters of a run give a limit for the frames that a party accepts.  All that a multiplier
sends, from its setup on and for jobs that are not longer than a batch, all base transfers and all
openings of a sacrifice stay within this limit, as far as a machine word can count their bytes
(`Config.maxFrame_accepts`).
-/

namespace Beaver

open List
open ShareRing
open Session (Limited)

namespace Transfer.Base

variable {n : Nat} {g : Group} {l : LinkEnd} {σ : Type} {t : σ}

theorem limited_drawFactors {k : Nat} {post : List Nat → σ → Prop} {inv : σ → Prop}
    (hpost : ∀ xs, xs.length = k → post xs t) : Limited n (drawFactors g k) t post inv := by
  induction k generalizing post with
  | zero => exact hpost [] rfl
  | succ k ih =>
    simp [drawFactors, drawFactor]
    exact fun bs _ => ih fun xs hxs => hpost _ (congrArg (· + 1) hxs)

variable (hg : ∀ p, (g.encode p).length = 32)

include hg

/-- The receiver answers with one element for each choice. -/
theorem limited_receive {choices : List Bool} {post : List Block → σ → Prop} {inv : σ → Prop}
    (hn : 8 + choices.length * 32 ≤ n) (hpost : ∀ received, post received t) (hinv : inv t) :
    Limited n (receive g l choices) t post inv := by
  have hanswers : ∀ s (xs : List Nat), xs.length = choices.length → ((Wire.bytes 32).list.encode
      ((choices.zip xs).map fun p => g.encode (answer g s p.1 p.2))).length ≤ n := by
    intro s xs hxs
    refine (Wire.length_encode_list_le (k := 32) ?_).trans ?_
    · intro m hm
      obtain ⟨p, -, rfl⟩ := mem_map.mp hm
      exact (hg _).le
    · rwa [length_map, length_zip, hxs, Nat.min_self]
  simp +contextual [receive, limited_drawFactors, hanswers, hpost, hinv]

/-- **Base transfers** send a list of as many elements as there are transfers. -/
theorem limited_execute {b : Base} {regenerate : Bool} (hn : 8 + b.count * 32 ≤ n) (h32 : 32 ≤ n) :
    Limited n (execute g l regenerate) b (fun _ _ => True) fun _ => True := by
  have helement : ∀ p, ((Wire.bytes 32).encode (g.encode p)).length ≤ n := fun p =>
    (hg p).le.trans h32
  have hdirection : ∀ sending (b' : Base), b'.count = b.count →
      Limited n (direction g l sending) b' (fun _ u => u.count = b.count) fun _ => True := by
    intro sending b' hb'
    have hbits : 8 + b'.choices.bits.length * 32 ≤ n := by
      have hle : b'.choices.bits.length ≤ b.count := (length_take_le _ _).trans_eq hb'
      omega
    have hkept : b'.choices.length = b.count := hb'
    simp [direction, send, drawFactor, LinkEnd.recvList, helement, limited_receive hg hbits, count,
      hkept]
  have hturns : ∀ first second (b' : Base), b'.count = b.count →
      Limited n (direction g l first) b' (fun _ u => Limited n (direction g l second) u
        (fun _ _ => True) fun _ => True) fun _ => True := by
    intro first second b' hb'
    refine (hdirection first b' hb').mono (fun _ u hu => ?_) fun _ _ h => h
    exact (hdirection second u hu).mono (fun _ _ _ => trivial) fun _ _ h => h
  simp [execute, drawChoices]
  exact fun _ => ⟨fun _ _ _ => hturns _ _ _ (BitString.length_clearPadding _).1,
    fun _ => hturns _ _ b rfl⟩

end Transfer.Base

theorem Ristretto.length_encode (p : Point) : (group.encode p).length = 32 :=
  Bytes.length_ofNatLE _ _

/-- **An opening** has at most two elements in a message for each of the items that a sacrifice
keeps. -/
theorem Sacrifice.limited_openShares {n : Nat} {φ : Type} [ShareField φ] {c : Setting}
    {s : Sacrifice φ} {phase : String} {shares : List (Share φ φ)} (hφ : bytes φ ≤ 16)
    (hc : 0 < c.amortize) (hn : 32 * c.amortize + 64 ≤ n) :
    Limited n (openShares c phase shares) s (fun _ _ => True) fun _ => True := by
  have hparts : Limited n ((batches c.batchSize shares).mapM fun part =>
      checking (MacCheck.openShares c.player phase part)) s (fun _ _ => True) fun _ => True := by
    refine (Session.Always.mapM (I := fun _ => True) (fun part hpart u _ => ?_) trivial).mono
      (fun _ _ _ => trivial) fun _ _ h => h
    have hpart : part.length ≤ 2 * c.amortize :=
      (length_le_of_mem_batches (Setting.batchSize_pos hc) shares part hpart).trans
        (Nat.min_le_left _ _)
    have hvalues : ((Wire.element φ).list.encode (part.map (·.value))).length ≤ n := by
      refine (Wire.length_encode_elements _).trans ?_
      have hle := Nat.mul_le_mul hpart hφ
      rw [length_map]
      omega
    simp [checking, MacCheck.openShares, Player.always_gather, Session.always_forM_check, hvalues]
  simpa [openShares] using hparts

/-- A frame within the limit is received. -/
theorem Frame.receive_encode {limit : Nat} {m : Bytes} (hlimit : m.length ≤ limit)
    (hword : m.length < 2 ^ 64) (rest : Bytes) : receive limit (encode m ++ rest) = (.ok m, rest) := by
  have hcount := Wire.carries_count hword (m ++ rest)
  have hbytes : (Wire.bytes m.length).decode (m ++ rest) = .ok (m, rest) := Wire.carries_bytes rfl rest
  rw [receive, encode, append_assoc, hcount]
  simp only [Nat.not_lt.mpr hlimit, if_false]
  rw [hbytes]

/-- All messages that a program can come to send, whatever its peers do, are as `P` says. -/
def Protocol.Sends {α : Type} (P : Bytes → Prop) (p : Protocol α) : Prop :=
  ∀ es q peer m, p.Follows es q → Event.sent peer m ∈ es → P m

theorem Session.Always.sends {σ α : Type} {n : Nat} {s : Session σ α} {t : σ}
    {post : α → σ → Prop} {inv : σ → Prop} {P : Bytes → Prop} (h : Limited n s t post inv)
    (hP : ∀ m : Bytes, m.length ≤ n → P m) : (s.start t).Sends P :=
  fun _ _ peer m hes hm => hP m ((Protocol.Always.of_follows hes h).2 peer m hm)

namespace Config

variable {c : Config}

theorem sizes_of_validate (h : c.validate = .ok ()) : c.baseTransfers = 128 ∧ 0 < c.amortize := by
  rw [validate] at h
  simp only [bind, Except.bind, throw, throwThe, MonadExceptOf.throw] at h
  split_ifs at h
  omega

/-- The frame of a message is accepted, if a machine word can count its bytes. -/
def Accepts (c : Config) (m : Bytes) : Prop :=
  m.length < 2 ^ 64 →
    m.length ≤ c.maxFrame ∧ ∀ rest, Frame.receive c.maxFrame (Frame.encode m ++ rest) = (.ok m, rest)

theorem accepts_of_length_le {m : Bytes}
    (h : m.length ≤ 4096 * max c.batchSize c.amortize + 65536) : c.Accepts m := by
  intro hword
  have hlimit : m.length ≤ c.maxFrame := by
    rw [maxFrame, Nat.pow_eq]
    omega
  exact ⟨hlimit, Frame.receive_encode hlimit hword⟩

/-- **The frame limit is enough.**  With valid parameters the frame of every message is accepted
that a multiplier sends in its setup or for jobs of at most a batch, over all rings and also after
some of them have failed; that base transfers send; and that a sacrifice sends to open shares. -/
theorem maxFrame_accepts (hc : c.validate = .ok ()) :
    (∀ (d : Domain) (l : LinkEnd) (seeds : Transfer.Seeds) (key : Option d.tag.Carrier)
      (passive : Bool) (jobs : List (Multiplier.Job d.value.Carrier)),
      (∀ job ∈ jobs, job.length ≤ c.batchSize) →
      ((Session.calls (Multiplier.setup l seeds key passive) (Multiplier.process l) jobs).start
        ()).Sends c.Accepts) ∧
    (∀ (l : LinkEnd) (regenerate : Bool) (b : Transfer.Base), b.count = c.baseTransfers →
      ((Transfer.Base.execute Ristretto.group l regenerate).start b).Sends c.Accepts) ∧
    ∀ (f : FieldName) (p : Player) (s : Sacrifice f.Carrier) (phase : String)
      (shares : List (Share f.Carrier f.Carrier)),
      ((Sacrifice.openShares ⟨p, c.amortize⟩ phase shares).start s).Sends c.Accepts := by
  obtain ⟨hbase, hamortize⟩ := sizes_of_validate hc
  refine ⟨fun d l seeds key passive jobs hjobs => ?_, fun l regenerate b hb => ?_,
    fun f p s phase shares => ?_⟩
  · have hbits := d.tag.bits_le
    have hsetup : Session.Limited (4096 * c.batchSize + 65536) (Multiplier.setup l seeds key passive)
        () (fun m _ => m.Streamed) fun _ => True := by
      refine Multiplier.limited_setup ?_ (by omega)
      rw [Transfer.squaresFor]
      omega
    refine (hsetup.calls fun job hjob m hm => ?_).sends fun m hm => accepts_of_length_le (by omega)
    exact Multiplier.limited_process d.value.narrow d.tag.narrow le_rfl (hjobs job hjob) hm
  · have hexecute : Session.Limited 65536 (Transfer.Base.execute Ristretto.group l regenerate) b
        (fun _ _ => True) fun _ => True :=
      Transfer.Base.limited_execute Ristretto.length_encode (by omega) (by omega)
    exact hexecute.sends fun m hm => accepts_of_length_le (by omega)
  · have hbytes : bytes f.Carrier ≤ 16 := by cases f <;> decide
    have hopen : Session.Limited (32 * c.amortize + 64)
        (Sacrifice.openShares ⟨p, c.amortize⟩ phase shares) s (fun _ _ => True) fun _ => True :=
      Sacrifice.limited_openShares hbytes hamortize le_rfl
    exact hopen.sends fun m hm => accepts_of_length_le (by omega)

/-- Two jobs on one value each, with the least batches, and 128 base transfers in both
directions. -/
theorem maxFrame_accepts_least :
    let c : Config := { batchSize := 1, amortize := 1 }
    let pairs := replicate 128 (Block.zero, Block.ofNat 1)
    let seeds := Transfer.Seeds.ofPairs pairs pairs (.ofBits (replicate 128 true))
    let jobs : List (Multiplier.Job Word128) := [.triple [1] [1], .authenticate [1]]
    let b := Transfer.Base.ofChoices .both (.zeros 128)
    c.validate = .ok () ∧ (∀ job ∈ jobs, job.length ≤ c.batchSize) ∧ b.count = c.baseTransfers ∧
      ((Session.calls (Multiplier.setup ⟨1, 0, 1⟩ seeds (some (1 : Word128)) false)
        (Multiplier.process ⟨1, 0, 1⟩) jobs).start ()).Sends c.Accepts ∧
      ((Transfer.Base.execute Ristretto.group ⟨1, 0, 1⟩ true).start b).Sends c.Accepts := by
  intro c pairs seeds jobs b
  have hc : c.validate = .ok () := rfl
  have hjobs : ∀ job ∈ jobs, job.length ≤ c.batchSize := by
    intro job hjob
    simp only [jobs, mem_cons, not_mem_nil, or_false] at hjob
    rcases hjob with rfl | rfl
    · exact le_rfl
    · exact le_rfl
  obtain ⟨hmultiplier, hbase, -⟩ := maxFrame_accepts hc
  exact ⟨hc, hjobs, rfl, hmultiplier (.same .word128) _ seeds (some (1 : Word128)) false jobs hjobs,
    hbase _ true b rfl⟩

end Config

end Beaver
