import Mathlib
import Beaver.PrepFile
import Beaver.Proofs.PrepFile.Items

/-!
# The header of a file

A file of items starts with the length and the bytes of a signature.  Bytes that are not text
are read with a replacement character for every stretch that is none, so that different bytes
may be read as one text; but a text of ASCII characters is read from its own bytes only
(`Utf8.lossy_eq_iff`), and signatures are such texts, not too long, and not the description of
a longer header.
-/

namespace Beaver

open List

namespace Utf8

variable {n value size size' : Nat} {bs : Bytes} {c : Char} {lo hi b : UInt8}

/-- Bytes that follow each other extend a number by six bits each. -/
theorem follow_eq_scalar (h : follow n 0x80 0xbf value size bs = .scalar c size') :
    ∃ v, c = Char.ofNat v ∧ value * 64 ^ n ≤ v ∧ v < (value + 1) * 64 ^ n := by
  induction n generalizing value size bs with
  | zero =>
    obtain ⟨rfl, -⟩ := Head.scalar.inj h
    exact ⟨value, rfl, by omega, by omega⟩
  | succ n ih =>
    cases bs with
    | nil => cases h
    | cons b bs =>
      rw [follow] at h
      split at h
      · obtain ⟨v, rfl, hle, hlt⟩ := ih h
        have hb : b.toNat % 64 < 64 := Nat.mod_lt _ (by omega)
        refine ⟨v, rfl, ?_, ?_⟩
        · calc value * 64 ^ (n + 1) = value * 64 * 64 ^ n := by ring
            _ ≤ (value * 64 + b.toNat % 64) * 64 ^ n := Nat.mul_le_mul_right _ (by omega)
            _ ≤ v := hle
        · calc v < (value * 64 + b.toNat % 64 + 1) * 64 ^ n := hlt
            _ ≤ ((value + 1) * 64) * 64 ^ n := Nat.mul_le_mul_right _ (by omega)
            _ = (value + 1) * 64 ^ (n + 1) := by ring
      · cases h

theorem follow_succ_eq_scalar (h : follow (n + 1) lo hi value size bs = .scalar c size') :
    ∃ v, ∃ b : UInt8, c = Char.ofNat v ∧ lo.toNat ≤ b.toNat ∧ b.toNat ≤ hi.toNat ∧
      (value * 64 + b.toNat % 64) * 64 ^ n ≤ v ∧ v < (value * 64 + b.toNat % 64 + 1) * 64 ^ n := by
  cases bs with
  | nil => cases h
  | cons b bs =>
    rw [follow] at h
    split at h
    · next hb =>
        obtain ⟨v, rfl, hle, hlt⟩ := follow_eq_scalar h
        exact ⟨v, b, rfl, hb.1, hb.2, hle, hlt⟩
    · cases h

/-- The lead bytes: how many bytes follow, and where the first of them lies. -/
theorem lead?_cases (h : lead? b = some (n, lo, hi)) :
    (n = 1 ∧ 0xc2 ≤ b.toNat ∧ b.toNat < 0xe0 ∧ lo.toNat = 0x80 ∧ hi.toNat = 0xbf) ∨
    (n = 2 ∧ b.toNat = 0xe0 ∧ lo.toNat = 0xa0 ∧ hi.toNat = 0xbf) ∨
    (n = 2 ∧ b.toNat = 0xed ∧ lo.toNat = 0x80 ∧ hi.toNat = 0x9f) ∨
    (n = 2 ∧ 0xe0 < b.toNat ∧ b.toNat ≠ 0xed ∧ b.toNat < 0xf0 ∧ lo.toNat = 0x80 ∧ hi.toNat = 0xbf) ∨
    (n = 3 ∧ b.toNat = 0xf0 ∧ lo.toNat = 0x90 ∧ hi.toNat = 0xbf) ∨
    (n = 3 ∧ 0xf0 < b.toNat ∧ b.toNat < 0xf4 ∧ lo.toNat = 0x80 ∧ hi.toNat = 0xbf) ∨
    (n = 3 ∧ b.toNat = 0xf4 ∧ lo.toNat = 0x80 ∧ hi.toNat = 0x8f) := by
  simp only [lead?, UInt8.lt_iff_toNat_lt, ← UInt8.toNat_inj, UInt8.reduceToNat] at h
  split_ifs at h <;> cases h <;> simp <;> omega

/-- A character of more than one byte is not an ASCII character. -/
theorem le_toNat_of_head (hb : ¬ b < 0x80) (h : head b bs = .scalar c size) : 128 ≤ c.toNat := by
  have hvalid : ∀ v, 128 ≤ v → v.isValidChar → 128 ≤ (Char.ofNat v).toNat := by
    intro v hv hchar
    rwa [Char.toNat_ofNat, if_pos hchar]
  rw [head, if_neg hb] at h
  cases hlead : lead? b with
  | none => simp [hlead] at h
  | some entry =>
    obtain ⟨n, lo, hi⟩ := entry
    simp only [hlead] at h
    rcases lead?_cases hlead with hcase | hcase | hcase | hcase | hcase | hcase | hcase
    all_goals
      obtain ⟨rfl, hcase⟩ := hcase
      obtain ⟨v, first, rfl, hlo, hhi, hle, hlt⟩ := follow_succ_eq_scalar h
      have hfirst : first.toNat < 256 := first.toNat_lt
      refine hvalid v (by omega) ?_
      simp only [Nat.isValidChar]
      omega

/-- **A text of ASCII characters is read from its own bytes only.** -/
theorem lossy_eq_iff {cs : List Char} (hcs : ∀ c ∈ cs, c.toNat < 128) :
    lossy bs = cs ↔ bs = cs.map fun c => UInt8.ofNat c.toNat := by
  induction cs generalizing bs with
  | nil => cases bs with
    | nil => simp [lossy]
    | cons b bs => rw [lossy]; cases head b bs <;> simp
  | cons c cs ih =>
    obtain ⟨hc, hcs⟩ := forall_mem_cons.mp hcs
    have hbyte : (UInt8.ofNat c.toNat).toNat = c.toNat :=
      UInt8.toNat_ofNat_of_lt (hc.trans (by decide))
    cases bs with
    | nil => simp [lossy]
    | cons b bs =>
      rw [map_cons, cons.injEq]
      by_cases hb : b < 0x80
      · have hread : lossy (b :: bs) = Char.ofNat b.toNat :: lossy bs := by
          rw [lossy, head, if_pos hb]
          rfl
        have hchar : Char.ofNat b.toNat = c ↔ b = UInt8.ofNat c.toNat := by
          constructor
          · rintro rfl
            have hvalid : b.toNat.isValidChar := .inl (hb.trans (by decide))
            rw [Char.toNat_ofNat, if_pos hvalid, UInt8.ofNat_toNat]
          · rintro rfl
            rw [hbyte, Char.ofNat_toNat]
        rw [hread, cons.injEq, hchar, ih hcs]
      · have hne : b ≠ UInt8.ofNat c.toNat := by
          rintro rfl
          rw [UInt8.lt_iff_toNat_lt, hbyte] at hb
          exact hb hc
        refine iff_of_false ?_ (fun h => hne h.1)
        rw [lossy]
        cases hhead : head b bs with
        | scalar c' size =>
          rintro ⟨⟩
          exact absurd (le_toNat_of_head hb hhead) (by omega)
        | invalid size | truncated size =>
          rintro ⟨⟩
          exact absurd hc (by decide)

theorem toList_loop (a : ByteArray) (i : Nat) (r : List UInt8) :
    ByteArray.toList.loop a i r = r.reverse ++ a.data.toList.drop i := by
  induction h : a.size - i generalizing i r with
  | zero =>
    rw [ByteArray.toList.loop, if_neg (by omega), drop_eq_nil_of_le, append_nil]
    change a.size ≤ i
    omega
  | succ n ih =>
    have hi : i < a.data.toList.length := by
      change i < a.size
      omega
    have hget : a.get! i = a.data.toList.get ⟨i, hi⟩ := by
      rw [ByteArray.get!, getElem!_pos a.data i (by simpa using hi)]
      rfl
    rw [ByteArray.toList.loop, if_pos (by omega), ih _ _ (by omega), drop_eq_getElem_cons hi,
      hget]
    simp

/-- The bytes of a text of ASCII characters. -/
theorem encode_eq {s : String} (hs : ∀ c ∈ s.toList, c.toNat < 128) :
    encode s = s.toList.map fun c => UInt8.ofNat c.toNat := by
  have hbytes : encode s = s.toList.flatMap String.utf8EncodeChar := by
    rw [encode, ByteArray.toList, toList_loop, String.toUTF8, ← String.utf8Encode_toList]
    simp [utf8Encode]
  rw [hbytes, map_eq_flatMap]
  refine flatMap_congr fun c hc => ?_
  have hsize : c.utf8Size = 1 := by
    rw [Char.utf8Size_eq_one_iff]
    exact Nat.le_of_lt_succ (hs c hc)
  rw [String.utf8EncodeChar_eq_singleton hsize]
  rfl

end Utf8

/-- A text of ASCII characters, of at most so many. -/
structure Plain (n : Nat) (s : String) : Prop where
  ascii : ∀ c ∈ s.toList, c.toNat < 128
  short : s.toList.length ≤ n

namespace Plain

variable {m n : Nat} {s t : String}

theorem append (hs : Plain m s) (ht : Plain n t) : Plain (m + n) (s ++ t) where
  ascii c hc := by
    rw [String.toList_append, mem_append] at hc
    exact hc.elim (hs.ascii c) (ht.ascii c)
  short := by
    rw [String.toList_append, length_append]
    exact Nat.add_le_add hs.short ht.short

theorem mono (h : Plain m s) (hmn : m ≤ n) : Plain n s :=
  ⟨h.ascii, h.short.trans hmn⟩

theorem length_encode_le (h : Plain n s) : (Utf8.encode s).length ≤ n := by
  rw [Utf8.encode_eq h.ascii, length_map]
  exact h.short

theorem ofList_lossy_eq_iff (h : Plain n s) {bs : Bytes} :
    String.ofList (Utf8.lossy bs) = s ↔ bs = Utf8.encode s := by
  rw [Utf8.encode_eq h.ascii, ← Utf8.lossy_eq_iff h.ascii]
  constructor
  · rintro rfl
    rw [String.toList_ofList]
  · intro hread
    rw [hread, String.ofList_toList]

end Plain

theorem RingName.plain_name (r : RingName) : Plain 5 (ShareRing.name r.Carrier) := by
  cases r <;> constructor <;> simp [ShareRing.name]

namespace ItemType

variable (r s : RingName)

theorem plain_share_signature : Plain 18 (Stored.signature (Share r.Carrier s.Carrier)) :=
  have hopen : Plain 6 "Share<" := ⟨by simp, by simp⟩
  have hcomma : Plain 1 "," := ⟨by simp, by simp⟩
  have hclose : Plain 1 ">" := ⟨by simp, by simp⟩
  (((hopen.append r.plain_name).append hcomma).append s.plain_name).append hclose

/-- A signature of items made of others, as it is with parentheses around theirs. -/
theorem plain_wrapped {kind inner : String} (hkind : Plain 12 kind) (hinner : Plain 18 inner) :
    Plain PrepReader.maxSignature (kind ++ inner ++ ")") :=
  have hclose : Plain 1 ")" := ⟨by simp, by simp⟩
  ((hkind.append hinner).append hclose).mono (by decide)

/-- Signatures are plain, and short enough to be read. -/
theorem plain_signature (k : ItemKind) :
    Plain PrepReader.maxSignature (Stored.signature (ItemOf r.Carrier s.Carrier k)) := by
  cases k with
  | share => exact (plain_share_signature r s).mono (by decide)
  | plainTriple => exact plain_wrapped ⟨by simp, by simp⟩ (r.plain_name.mono (by decide))
  | triple | inputMask | pair =>
    exact plain_wrapped ⟨by simp, by simp⟩ (plain_share_signature r s)

/-- A signature is not the description of a header that is too long. -/
theorem signature_ne_description (k : ItemKind) (n : Nat) :
    s!"<header of {n} bytes>" ≠ Stored.signature (ItemOf r.Carrier s.Carrier k) := by
  intro h
  have hfirst : ("<header of " ++ toString n ++ " bytes>").toList.head? =
      (Stored.signature (ItemOf r.Carrier s.Carrier k)).toList.head? := by
    rw [← h]
    rfl
  cases k <;> simp [Stored.signature] at hfirst

end ItemType

end Beaver
