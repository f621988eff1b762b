/-!
# Byte strings and little-endian integers

Messages, files and encodings are lists of bytes.  Integers are written with a
fixed width, least significant byte first; `ofNatLE` and `toNatLE` are the two
directions, and each undoes the other on the numbers that fit.
-/

namespace Beaver

/-- A message, a file or an encoding: its bytes in order. -/
abbrev Bytes := List UInt8

namespace Bytes

/-- The `width` low bytes of a number, the least significant first. -/
def ofNatLE : Nat → Nat → Bytes
  | 0, _ => []
  | width + 1, x => UInt8.ofNat x :: ofNatLE width (x / 256)

/-- The number whose bytes these are, the least significant first. -/
def toNatLE : Bytes → Nat
  | [] => 0
  | b :: bs => b.toNat + 256 * toNatLE bs

/-- Bitwise exclusive or of two strings, as long as the shorter one. -/
def xor (a b : Bytes) : Bytes :=
  List.zipWith (· ^^^ ·) a b

@[simp]
theorem length_ofNatLE (width x : Nat) : (ofNatLE width x).length = width := by
  induction width generalizing x with
  | zero => rfl
  | succ width ih => simp [ofNatLE, ih]

/-- Reading back a written number gives it modulo the width. -/
theorem toNatLE_ofNatLE (width x : Nat) : toNatLE (ofNatLE width x) = x % Nat.pow 256 width := by
  induction width generalizing x with
  | zero => simp [ofNatLE, toNatLE, Nat.mod_one]
  | succ width ih =>
    have hstep : x % Nat.pow 256 (width + 1) = x % 256 + 256 * (x / 256 % Nat.pow 256 width) := by
      rw [Nat.pow_eq, Nat.pow_eq, Nat.pow_succ, Nat.mul_comm, Nat.mod_mul]
    rw [ofNatLE, toNatLE, ih, hstep]
    simp

/-- Every string is the writing of its own number. -/
theorem ofNatLE_toNatLE (bs : Bytes) : ofNatLE bs.length (toNatLE bs) = bs := by
  induction bs with
  | nil => rfl
  | cons b bs ih =>
    have hb : b.toNat < 256 := b.toNat_lt
    have hdiv : (b.toNat + 256 * toNatLE bs) / 256 = toNatLE bs := by omega
    have hbyte : UInt8.ofNat (b.toNat + 256 * toNatLE bs) = b := by
      apply UInt8.toNat_inj.mp
      simp
    simp only [List.length_cons, ofNatLE, toNatLE, hdiv, ih, hbyte]

end Bytes

end Beaver
