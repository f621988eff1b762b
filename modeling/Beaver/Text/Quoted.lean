import Beaver.Text.Printable

/-!
# Quoted text

Paths and signatures appear in messages between double quotes.  Quotes,
backslashes and the usual control characters are escaped by a backslash, and every
other character that has no shape of its own by its number.
-/

namespace Beaver.Text

/-- The spelling of a character between double quotes. -/
def escape (c : Char) : List Char :=
  if c.toNat = 0 then ['\\', '0']
  else if c = '\t' then ['\\', 't']
  else if c = '\n' then ['\\', 'n']
  else if c = '\r' then ['\\', 'r']
  else if c = '"' then ['\\', '"']
  else if c = '\\' then ['\\', '\\']
  else if isPlain c then [c]
  else ['\\', 'u', '\x7b'] ++ Nat.toDigits 16 c.toNat ++ ['\x7d']

/-- A text between double quotes. -/
def quoted (s : String) : String :=
  String.ofList ('"' :: s.toList.flatMap escape ++ ['"'])

end Beaver.Text
