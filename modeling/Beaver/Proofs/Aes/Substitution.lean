import Mathlib
import Beaver.Cipher.Aes

/-!
# The substitution can be undone

The substitution of a byte is an affine map after the power 254, which is the inverse in the field
of 256 elements: applied twice it is the power `254 ^ 2`, and powers repeat after 255 steps
(`power_254_power_254`).

Multiplication of bytes is linear in each factor, and a linear map is known from its values on
the eight bits (`Additive.ext`); so identities between products are checked on bits only.
-/

namespace Beaver.Aes

theorem xor_and (a b m : UInt8) : (a ^^^ b) &&& m = (a &&& m) ^^^ (b &&& m) := by
  apply UInt8.toBitVec_inj.mp
  ext i
  simp [Bool.and_xor_distrib_right]

/-- Exclusive ors in any order. -/
theorem xor_left_comm (a b c : UInt8) : a ^^^ (b ^^^ c) = b ^^^ (a ^^^ c) := by
  rw [← UInt8.xor_assoc, UInt8.xor_comm a b, UInt8.xor_assoc]

theorem xor_cancel_left (a b : UInt8) : a ^^^ (a ^^^ b) = b := by
  rw [← UInt8.xor_assoc, UInt8.xor_self, UInt8.zero_xor]

/-- A map of bytes that is linear over exclusive or. -/
def Additive (f : UInt8 → UInt8) : Prop :=
  ∀ a b, f (a ^^^ b) = f a ^^^ f b

namespace Additive

variable {f g : UInt8 → UInt8}

theorem map_zero (hf : Additive f) : f 0 = 0 := by
  have h := hf 0 0
  rwa [UInt8.xor_self, UInt8.xor_self] at h

theorem comp (hf : Additive f) (hg : Additive g) : Additive fun x => f (g x) := by
  intro a b
  simp only
  rw [hg, hf]

theorem xor (hf : Additive f) (hg : Additive g) : Additive fun x => f x ^^^ g x := by
  intro a b
  simp only
  rw [hf, hg]
  ac_rfl

/-- A byte is made of its bits. -/
theorem eq_bits (x : UInt8) : x = (x &&& 1) ^^^ (x &&& 2) ^^^ (x &&& 4) ^^^ (x &&& 8) ^^^
    (x &&& 16) ^^^ (x &&& 32) ^^^ (x &&& 64) ^^^ (x &&& 128) := by
  apply UInt8.toBitVec_inj.mp
  ext i hi
  interval_cases i <;> simp

/-- Each bit of a byte is set or clear. -/
theorem bit_cases (x : UInt8) (k : Fin 8) :
    x &&& (1 <<< UInt8.ofNat k) = 0 ∨ x &&& (1 <<< UInt8.ofNat k) = 1 <<< UInt8.ofNat k := by
  have hbit : (1 <<< UInt8.ofNat k : UInt8).toBitVec = BitVec.twoPow 8 k := by
    fin_cases k <;> rfl
  rw [← UInt8.toBitVec_inj, ← UInt8.toBitVec_inj, UInt8.toBitVec_and, hbit, BitVec.and_twoPow]
  split
  · exact .inr rfl
  · exact .inl rfl

/-- **Linear maps that agree on the eight bits are equal.** -/
theorem ext (hf : Additive f) (hg : Additive g)
    (h : ∀ k : Fin 8, f (1 <<< UInt8.ofNat k) = g (1 <<< UInt8.ofNat k)) : f = g := by
  have hbit : ∀ (x : UInt8) (k : Fin 8),
      f (x &&& (1 <<< UInt8.ofNat k)) = g (x &&& (1 <<< UInt8.ofNat k)) := by
    intro x k
    rcases bit_cases x k with hx | hx
    · rw [hx, hf.map_zero, hg.map_zero]
    · rw [hx, h]
  funext x
  have h1 : f (x &&& 1) = g (x &&& 1) := hbit x 0
  have h2 : f (x &&& 2) = g (x &&& 2) := hbit x 1
  have h4 : f (x &&& 4) = g (x &&& 4) := hbit x 2
  have h8 : f (x &&& 8) = g (x &&& 8) := hbit x 3
  have h16 : f (x &&& 16) = g (x &&& 16) := hbit x 4
  have h32 : f (x &&& 32) = g (x &&& 32) := hbit x 5
  have h64 : f (x &&& 64) = g (x &&& 64) := hbit x 6
  have h128 : f (x &&& 128) = g (x &&& 128) := hbit x 7
  rw [eq_bits x]
  rw [hf, hf, hf, hf, hf, hf, hf, hg, hg, hg, hg, hg, hg, hg, h1, h2, h4, h8, h16, h32, h64, h128]

end Additive

theorem additive_double : Additive double := by
  intro a b
  have hhigh : ∀ x : UInt8, x &&& 0x80 = 0 ∨ x &&& 0x80 = 0x80 := fun x => Additive.bit_cases x 7
  rcases hhigh a with ha | ha <;> rcases hhigh b with hb | hb <;>
    simp [double, xor_and, ha, hb, UInt8.shiftLeft_xor, UInt8.xor_assoc, UInt8.xor_comm,
      xor_left_comm]

theorem mulBits_succ (n : Nat) (a b : UInt8) :
    mulBits (n + 1) a b = (if b &&& 1 == 1 then a else 0) ^^^ mulBits n (double a) (b >>> 1) := rfl

theorem additive_mulBits (n : Nat) (a : UInt8) : Additive (mulBits n a) := by
  intro b c
  induction n generalizing a b c with
  | zero => exact UInt8.xor_self.symm
  | succ n ih =>
    have hlow : ∀ x : UInt8, x &&& 1 = 0 ∨ x &&& 1 = 1 := fun x => Additive.bit_cases x 0
    rcases hlow b with hb | hb <;> rcases hlow c with hc | hc <;>
      simp [mulBits, xor_and, hb, hc, UInt8.shiftRight_xor, ih, UInt8.xor_assoc, xor_left_comm]

theorem additive_mulBits_left (n : Nat) (b : UInt8) : Additive fun a => mulBits n a b := by
  intro a c
  induction n generalizing a b c with
  | zero => exact UInt8.xor_self.symm
  | succ n ih =>
    simp only [mulBits, additive_double a c, ih]
    split
    · ac_rfl
    · simp

/-- Multiplication by `X` in one factor. -/
theorem mulBits_double (a b : UInt8) : mulBits 8 a (double b) = double (mulBits 8 a b) := by
  have hbits : ∀ i j : Fin 8, mulBits 8 (1 <<< UInt8.ofNat i) (double (1 <<< UInt8.ofNat j)) =
      double (mulBits 8 (1 <<< UInt8.ofNat i) (1 <<< UInt8.ofNat j)) := by decide
  have hleft : ∀ j : Fin 8, (fun a => mulBits 8 a (double (1 <<< UInt8.ofNat j))) =
      fun a => double (mulBits 8 a (1 <<< UInt8.ofNat j)) := fun j =>
    (additive_mulBits_left 8 _).ext (additive_double.comp (additive_mulBits_left 8 _))
      fun i => hbits i j
  have hright : (fun b => mulBits 8 a (double b)) = fun b => double (mulBits 8 a b) :=
    ((additive_mulBits 8 a).comp additive_double).ext (additive_double.comp (additive_mulBits 8 a))
      fun j => congrFun (hleft j) a
  exact congrFun hright b

theorem mulBits_comm (a b : UInt8) : mulBits 8 a b = mulBits 8 b a := by
  have hbits : ∀ i j : Fin 8, mulBits 8 (1 <<< UInt8.ofNat i) (1 <<< UInt8.ofNat j) =
      mulBits 8 (1 <<< UInt8.ofNat j) (1 <<< UInt8.ofNat i) := by decide
  have hleft : ∀ j : Fin 8, (fun a => mulBits 8 a (1 <<< UInt8.ofNat j)) =
      mulBits 8 (1 <<< UInt8.ofNat j) := fun j =>
    (additive_mulBits_left 8 _).ext (additive_mulBits 8 _) fun i => hbits i j
  have hright : mulBits 8 a = fun b => mulBits 8 b a :=
    (additive_mulBits 8 a).ext (additive_mulBits_left 8 a) fun j => congrFun (hleft j) a
  exact congrFun hright b

/-- Multiplication is associative. -/
theorem mulBits_assoc (n : Nat) (x a b : UInt8) :
    mulBits 8 x (mulBits n a b) = mulBits n (mulBits 8 x a) b := by
  induction n generalizing a b with
  | zero => exact (additive_mulBits 8 x).map_zero
  | succ n ih =>
    rw [mulBits_succ n a b, mulBits_succ n (mulBits 8 x a) b, additive_mulBits, ih,
      mulBits_double]
    split
    · rfl
    · rw [(additive_mulBits 8 x).map_zero]

theorem one_mulBits (b : UInt8) : mulBits 8 1 b = b := by
  have hid : mulBits 8 1 = id :=
    (additive_mulBits 8 1).ext (fun _ _ => rfl) (by decide)
  rw [hid, id]

theorem power_one (x : UInt8) : power x 1 = x := by
  rw [power, power, mulBits_comm, one_mulBits]

theorem power_add (x : UInt8) (m n : Nat) :
    power x (m + n) = mulBits 8 (power x m) (power x n) := by
  induction m with
  | zero => rw [Nat.zero_add, power, one_mulBits]
  | succ m ih => rw [Nat.add_right_comm, power, power, ih, mulBits_assoc]

theorem power_mul (x : UInt8) (m n : Nat) : power x (m * n) = power (power x m) n := by
  induction n with
  | zero => rfl
  | succ n ih => rw [Nat.mul_succ, Nat.add_comm, power_add, ih, power]

/-- Squaring is linear. -/
theorem additive_square : Additive fun x => power x 2 := by
  intro a b
  have hsquare : ∀ x, power x 2 = mulBits 8 x x := fun x => by
    rw [power_add x 1 1, power_one]
  have hleft : ∀ c, mulBits 8 (a ^^^ b) c = mulBits 8 a c ^^^ mulBits 8 b c := fun c =>
    additive_mulBits_left 8 c a b
  simp only [hsquare]
  rw [additive_mulBits, hleft, hleft, mulBits_comm b a, UInt8.xor_assoc, xor_cancel_left]

/-- Every byte is a root of `X ^ 256 - X`. -/
theorem power_256 (x : UInt8) : power x 256 = x := by
  have hiterate : ∀ k x, power x (2 ^ k) = (fun x => power x 2)^[k] x := by
    intro k
    induction k with
    | zero => exact power_one
    | succ k ih =>
      intro x
      rw [Nat.pow_succ, Nat.mul_comm, power_mul, ih, Function.iterate_succ_apply]
  have hadditive : ∀ k, Additive (fun x => power x 2)^[k] := by
    intro k
    induction k with
    | zero => exact fun _ _ => rfl
    | succ k ih => exact ih.comp additive_square
  have hid : (fun x => power x 2)^[8] = id :=
    (hadditive 8).ext (fun _ _ => rfl) (by decide +kernel)
  exact (hiterate 8 x).trans (congrFun hid x)

/-- **The power 254 is its own inverse.** -/
theorem power_254_power_254 (x : UInt8) : power (power x 254) 254 = x := by
  have hcycle : ∀ k, power x (255 * k + 1) = x := by
    intro k
    induction k with
    | zero => exact power_one x
    | succ k ih =>
      rw [show 255 * (k + 1) + 1 = 256 + 255 * k by ring, power_add, power_256]
      exact ih
  rw [← power_mul]
  exact hcycle 253

theorem additive_rotateByte {n : UInt8} {k : Nat}
    (hrotate : ∀ x, (rotateByte x n).toBitVec = x.toBitVec.rotateLeft k) :
    Additive (rotateByte · n) := by
  intro a b
  apply UInt8.toBitVec_inj.mp
  simp only [hrotate, UInt8.toBitVec_xor]
  ext i hi
  simp only [BitVec.getElem_rotateLeft, BitVec.getElem_xor]
  split <;> rfl

/-- The linear part of the affine map, and what undoes it. -/
theorem rotateByte_undo (y : UInt8) :
    let z := y ^^^ rotateByte y 1 ^^^ rotateByte y 2 ^^^ rotateByte y 3 ^^^ rotateByte y 4
    rotateByte z 1 ^^^ rotateByte z 3 ^^^ rotateByte z 6 = y := by
  have h1 : Additive (rotateByte · 1) := additive_rotateByte (k := 1) fun _ => rfl
  have h2 : Additive (rotateByte · 2) := additive_rotateByte (k := 2) fun _ => rfl
  have h3 : Additive (rotateByte · 3) := additive_rotateByte (k := 3) fun _ => rfl
  have h4 : Additive (rotateByte · 4) := additive_rotateByte (k := 4) fun _ => rfl
  have h6 : Additive (rotateByte · 6) := additive_rotateByte (k := 6) fun _ => rfl
  have hid : Additive id := fun _ _ => rfl
  have hlinear := (((hid.xor h1).xor h2).xor h3).xor h4
  have hundo := ((h1.xor h3).xor h6).comp hlinear
  exact congrFun (hundo.ext hid (by decide)) y

theorem substitute_injective : Function.Injective substitute := by
  have haffine : Function.Injective fun y : UInt8 =>
      y ^^^ rotateByte y 1 ^^^ rotateByte y 2 ^^^ rotateByte y 3 ^^^ rotateByte y 4 ^^^ 0x63 := by
    intro y y' h
    rw [← rotateByte_undo y, ← rotateByte_undo y', (UInt8.xor_left_inj _).mp h]
  intro x y h
  rw [← power_254_power_254 x, ← power_254_power_254 y]
  exact congrArg (power · 254) (haffine h)

end Beaver.Aes
