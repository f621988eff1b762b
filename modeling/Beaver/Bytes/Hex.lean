import Beaver.Bytes

/-!
# Byte strings in hexadecimal

Two digits a byte, the higher first.
-/

namespace Beaver.Bytes

/-- The digit of a number below 16. -/
def hexDigit (x : UInt8) : Char :=
  Char.ofNat (if x < 10 then 48 + x.toNat else 87 + x.toNat)

/-- The number of a lower-case digit. -/
def hexValue (c : Char) : UInt8 :=
  (if c.isDigit then c.toNat - 48 else c.toNat - 87).toUInt8

/-- The digits of a byte string. -/
def toHex (bs : Bytes) : String :=
  String.ofList (bs.flatMap fun (b : UInt8) => [hexDigit (b >>> 4), hexDigit (b &&& 15)])

/-- The bytes of a list of digits. -/
def ofHexDigits : List Char → Bytes
  | a :: b :: rest => (hexValue a <<< 4 ||| hexValue b) :: ofHexDigits rest
  | _ => []

/-- The byte string with the given digits. -/
def ofHex (s : String) : Bytes :=
  ofHexDigits s.toList

end Beaver.Bytes
