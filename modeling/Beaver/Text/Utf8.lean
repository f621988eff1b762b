import Beaver.Bytes

/-!
# Reading UTF-8

A byte string starts with a character, or with bytes that no character starts
with, or it ends inside a character.  The number of bytes that are skipped after
an invalid start is that of the longest prefix that could still have become a
character.
-/

namespace Beaver.Utf8

/-- What a byte string starts with, and on how many bytes. -/
inductive Head where
  | scalar (c : Char) (size : Nat)
  | invalid (size : Nat)
  | truncated (size : Nat)

/-- For a byte that leads a longer character: the number of bytes that follow, and
the range of the first of them. -/
def lead? (b : UInt8) : Option (Nat × UInt8 × UInt8) :=
  if b < 0xc2 then none
  else if b < 0xe0 then some (1, 0x80, 0xbf)
  else if b = 0xe0 then some (2, 0xa0, 0xbf)
  else if b = 0xed then some (2, 0x80, 0x9f)
  else if b < 0xf0 then some (2, 0x80, 0xbf)
  else if b = 0xf0 then some (3, 0x90, 0xbf)
  else if b < 0xf4 then some (3, 0x80, 0xbf)
  else if b = 0xf4 then some (3, 0x80, 0x8f)
  else none

/-- Reads the bytes that follow a lead byte. -/
def follow : Nat → UInt8 → UInt8 → Nat → Nat → Bytes → Head
  | 0, _, _, value, size, _ => .scalar (Char.ofNat value) size
  | _ + 1, _, _, _, size, [] => .truncated size
  | n + 1, lo, hi, value, size, b :: bs =>
    if lo ≤ b ∧ b ≤ hi then
      follow n 0x80 0xbf (value * 64 + b.toNat % 64) (size + 1) bs
    else .invalid size

/-- What a byte string with the given first byte starts with. -/
def head (b : UInt8) (bs : Bytes) : Head :=
  if b < 0x80 then .scalar (Char.ofNat b.toNat) 1
  else match lead? b with
    | none => .invalid 1
    | some (1, lo, hi) => follow 1 lo hi (b.toNat % 32) 1 bs
    | some (2, lo, hi) => follow 2 lo hi (b.toNat % 16) 1 bs
    | some (n, lo, hi) => follow n lo hi (b.toNat % 8) 1 bs

/-- The characters of a byte string, with a replacement character for every stretch
that is not one. -/
def lossy : Bytes → List Char
  | [] => []
  | b :: bs =>
    match head b bs with
    | .scalar c size => c :: lossy (bs.drop (size - 1))
    | .invalid size | .truncated size => '�' :: lossy (bs.drop (size - 1))
termination_by bs => bs.length
decreasing_by all_goals simp only [List.length_drop, List.length_cons]; omega

/-- Where a byte string stops being text: the bytes that are fine, and the size of
the invalid stretch unless the string just ends there. -/
structure Fault where
  valid : Nat
  size? : Option Nat
  deriving DecidableEq

/-- The characters of a byte string that starts at the given position. -/
def decodeFrom (position : Nat) : Bytes → Except Fault (List Char)
  | [] => .ok []
  | b :: bs =>
    match head b bs with
    | .scalar c size => (c :: ·) <$> decodeFrom (position + size) (bs.drop (size - 1))
    | .invalid size => .error ⟨position, some size⟩
    | .truncated _ => .error ⟨position, none⟩
termination_by bs => bs.length
decreasing_by simp only [List.length_drop, List.length_cons]; omega

/-- The text of a byte string, if it is one. -/
def decode (bs : Bytes) : Except Fault String :=
  String.ofList <$> decodeFrom 0 bs

/-- The bytes of a text. -/
def encode (s : String) : Bytes :=
  s.toUTF8.toList

end Beaver.Utf8
