/-!
# Documents that describe parameters

A parameter file is a document of nested records and lists.  A record of the
program may be written with its field names or, shorter, as the list of its fields
in order.
-/

namespace Beaver

/-- A value in a parameter file. -/
inductive Document where
  | null
  | flag (b : Bool)
  | integer (n : Int)
  /-- A number with a fractional part or an exponent. -/
  | fraction
  | text (s : String)
  | list (items : List Document)
  | record (fields : List (String × Document))

namespace Document

/-- Where a character stands in the source of a document. -/
inductive Place where
  | plain
  /-- Behind the letter `e`, which may begin an exponent. -/
  | exponent
  | quoted
  /-- Behind the backslash of an escape. -/
  | escaped

/-- Passes on one character.  An exponent, with or without a sign, gets a minus sign
and a digit more. -/
def markNext : String × Place → Char → String × Place
  | (out, .escaped), c => (out.push c, .quoted)
  | (out, .quoted), c =>
    (out.push c, if c = '\\' then .escaped else if c = '"' then .plain else .quoted)
  | (out, .exponent), c =>
    if c = '+' || c = '-' then (out ++ "-1", .plain)
    else if c.isDigit then ((out ++ "-1").push c, .plain)
    else (out.push c, .plain)
  | (out, .plain), c =>
    (out.push c,
      if c = '"' then .quoted else if c = 'e' || c = 'E' then .exponent else .plain)

/-- Makes every exponent in the source of a document negative, outside of quoted texts,
so that a number with an exponent never reads as an integer. -/
def markExponents (source : String) : String :=
  (source.foldl markNext ("", .plain)).1

/-- A number below a bound. -/
def below? (bound : Nat) : Document → Option Nat
  | integer n => if 0 ≤ n ∧ n < bound then some n.toNat else none
  | _ => none

/-- A number of the machine width. -/
def count? : Document → Option Nat :=
  below? (Nat.pow 2 64)

/-- A truth value. -/
def flag? : Document → Option Bool
  | flag b => some b
  | _ => none

/-- A text that may be missing. -/
def optionalText? : Document → Option (Option String)
  | null => some none
  | text s => some (some s)
  | _ => none

/-- Field `i` of a record with the given field names. -/
def field? (names : List String) (i : Nat) : Document → Option Document
  | record fields => names[i]?.bind fun name => List.lookup name fields
  | list items => items[i]?
  | _ => none

/-- Whether the document can be a record with the given field names, perhaps among
others. -/
def isRecord (names : List String) : Document → Bool
  | record _ => true
  | list items => items.length ≤ names.length
  | _ => false

/-- Whether the document has the given field names and no others. -/
def isExactRecord (names : List String) : Document → Bool
  | record fields => fields.all fun f => names.contains f.1
  | d => d.isRecord names

end Document

end Beaver
