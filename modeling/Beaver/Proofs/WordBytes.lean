import Mathlib
import Beaver.Block
import Beaver.Cipher.Quad

/-!
# Words and their bytes

The bytes of a word are those of its number, the least significant first, and a number of eight
bytes is made of two words.  So the bytes of a block are those of its four words.
-/

namespace Beaver

/-- A number of twice as many bytes. -/
theorem Bytes.ofNatLE_add (m n x y : Nat) (hx : x < 256 ^ m) :
    ofNatLE (m + n) (x + 256 ^ m * y) = ofNatLE m x ++ ofNatLE n y := by
  induction m generalizing x with
  | zero =>
    obtain rfl : x = 0 := by omega
    rw [Nat.zero_add, Nat.pow_zero, Nat.one_mul, Nat.zero_add]
    rfl
  | succ m ih =>
    have hsplit : x + 256 ^ (m + 1) * y = x + 256 * (256 ^ m * y) := by ring
    have hbyte : UInt8.ofNat (x + 256 ^ (m + 1) * y) = UInt8.ofNat x := by
      apply UInt8.toNat_inj.mp
      rw [hsplit]
      simp
    have hrest : (x + 256 ^ (m + 1) * y) / 256 = x / 256 + 256 ^ m * y := by
      rw [hsplit]
      omega
    have hlt : x / 256 < 256 ^ m := by
      rw [Nat.pow_succ] at hx
      omega
    rw [Nat.add_right_comm, ofNatLE, hbyte, hrest, ih _ hlt]
    rfl

theorem bytesOfWord_eq (w : UInt32) : bytesOfWord w = Bytes.ofNatLE 4 w.toNat := by
  have hshift : ∀ n : UInt32, n.toNat < 32 →
      (w >>> n).toUInt8 = UInt8.ofNat (w.toNat / 2 ^ n.toNat) := by
    intro n hn
    apply UInt8.toNat_inj.mp
    rw [UInt32.toNat_toUInt8, UInt32.toNat_shiftRight, Nat.mod_eq_of_lt hn,
      Nat.shiftRight_eq_div_pow, UInt8.toNat_ofNat']
  simp only [bytesOfWord, Bytes.ofNatLE, hshift 8 (by decide), hshift 16 (by decide),
    hshift 24 (by decide), UInt32.reduceToNat, Nat.div_div_eq_div_mul]
  rfl

theorem bytesOfWords_append (ws vs : List UInt32) :
    bytesOfWords (ws ++ vs) = bytesOfWords ws ++ bytesOfWords vs :=
  List.flatMap_append

/-- The bytes of two words, as those of one number. -/
theorem ofNatLE_eight (lo hi : UInt32) :
    Bytes.ofNatLE 8 (lo.toNat + 2 ^ 32 * hi.toNat) = bytesOfWords [lo, hi] := by
  have hbytes := Bytes.ofNatLE_add 4 4 lo.toNat hi.toNat lo.toNat_lt
  simpa [bytesOfWords, bytesOfWord_eq] using hbytes

theorem toNat_join (lo hi : UInt32) :
    (lo.toUInt64 ||| (hi.toUInt64 <<< 32)).toNat = lo.toNat + 2 ^ 32 * hi.toNat := by
  have hlo : lo.toNat < 2 ^ 32 := lo.toNat_lt
  have hhi : hi.toNat < 2 ^ 32 := hi.toNat_lt
  have hup : (hi.toUInt64 <<< 32).toNat = 2 ^ 32 * hi.toNat := by
    rw [UInt64.toNat_shiftLeft, UInt32.toNat_toUInt64, Nat.shiftLeft_eq]
    simp only [UInt64.reduceToNat, Nat.reduceMod, Nat.reducePow]
    omega
  rw [UInt64.toNat_or, UInt32.toNat_toUInt64, hup, Nat.or_comm,
    ← Nat.two_pow_add_eq_or_of_lt hlo, Nat.add_comm]

theorem toNat_halves (x : UInt64) :
    x.toNat = x.toUInt32.toNat + 2 ^ 32 * (x >>> 32).toUInt32.toNat := by
  have hx : x.toNat < 2 ^ 64 := x.toNat_lt
  rw [UInt64.toNat_toUInt32, UInt64.toNat_toUInt32, UInt64.toNat_shiftRight,
    Nat.shiftRight_eq_div_pow]
  simp only [UInt64.reduceToNat, Nat.reduceMod, Nat.reducePow]
  omega

/-- The bytes of a block are those of its words. -/
theorem Block.toBytes_eq (b : Block) : b.toBytes = bytesOfWords b.words := by
  rw [toBytes, toNat_halves b.lo, toNat_halves b.hi, ofNatLE_eight, ofNatLE_eight]
  rfl

end Beaver
