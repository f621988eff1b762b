import Beaver.Error
import Beaver.Random.Words
import Beaver.Ring.Basic
import Beaver.Text.Utf8

/-!
# The encoding of messages

A message is the encoding of one value.  Integers have a fixed width and are
written least significant byte first; a list or a text starts with its length; the
parts of a record follow each other.  Decoding reads one value from the front and
returns what is left, so that bytes after the value are never looked at.
-/

namespace Beaver

/-- How values of a type are written to and read from messages. -/
structure Wire (α : Type) where
  encode : α → Bytes
  decode : Bytes → Except Malformed (α × Bytes)

namespace Wire

variable {α β : Type}

/-- Reads a value and forgets what is left. -/
def read (w : Wire α) (bs : Bytes) : Except Malformed α :=
  (·.1) <$> w.decode bs

/-- Exactly `n` bytes. -/
def bytes (n : Nat) : Wire Bytes where
  encode := id
  decode bs :=
    let front := bs.take n
    if front.length = n then .ok (front, bs.drop n) else .error .truncated

/-- A number written in `width` bytes. -/
def number (width : Nat) : Wire Nat where
  encode := Bytes.ofNatLE width
  decode bs := do
    let (front, rest) ← (bytes width).decode bs
    .ok (Bytes.toNatLE front, rest)

/-- A number of items, written in eight bytes. -/
def count : Wire Nat := number 8

/-- A truth value in one byte. -/
def flag : Wire Bool where
  encode b := [if b then 1 else 0]
  decode
    | [] => .error .truncated
    | b :: rest =>
      if b = 0 then .ok (false, rest)
      else if b = 1 then .ok (true, rest)
      else .error (.flag b)

/-- A value that may be missing, after a byte that says whether it is there. -/
def optional (w : Wire α) : Wire (Option α) where
  encode
    | none => [0]
    | some a => 1 :: w.encode a
  decode
    | [] => .error .truncated
    | b :: rest =>
      if b = 0 then .ok (none, rest)
      else if b = 1 then do
        let (a, rest) ← w.decode rest
        .ok (some a, rest)
      else .error (.tag b)

/-- Two values after each other. -/
def pair (v : Wire α) (w : Wire β) : Wire (α × β) where
  encode p := v.encode p.1 ++ w.encode p.2
  decode bs := do
    let (a, bs) ← v.decode bs
    let (b, bs) ← w.decode bs
    .ok ((a, b), bs)

/-- Values of one type seen as values of another, where each of the one has a
reading in the other. -/
def map (w : Wire α) (f : α → β) (g : β → α) : Wire β where
  encode b := w.encode (g b)
  decode bs := do
    let (a, bs) ← w.decode bs
    .ok (f a, bs)

/-- Reads `n` values; those read so far are kept in reverse. -/
def decodeMany (w : Wire α) : Nat → List α → Bytes → Except Malformed (List α × Bytes)
  | 0, done, bs => .ok (done.reverse, bs)
  | n + 1, done, bs => do
      let (a, bs) ← w.decode bs
      decodeMany w n (a :: done) bs

/-- A list: its length, then its items. -/
def list (w : Wire α) : Wire (List α) where
  encode xs := count.encode xs.length ++ xs.flatMap w.encode
  decode bs := do
    let (n, bs) ← count.decode bs
    w.decodeMany n [] bs

/-- A text: the number of its bytes, then its bytes. -/
def text : Wire String where
  encode s :=
    let bs := Utf8.encode s
    count.encode bs.length ++ bs
  decode bs := do
    let (n, bs) ← count.decode bs
    let front := bs.take n
    if front.length = n then
      match Utf8.decode front with
      | .ok s => .ok (s, bs.drop n)
      | .error fault => .error (.text fault.valid fault.size?)
    else .error .truncatedText

/-- A block: its 16 bytes. -/
def block : Wire Block where
  encode := Block.toBytes
  decode bs := do
    let (front, rest) ← (bytes 16).decode bs
    .ok (Block.ofBytes front, rest)

/-- A ring element: its representing integer, which has to be canonical. -/
def element (α : Type) [ShareRing α] : Wire α where
  encode := ShareRing.encode
  decode bs := do
    let (front, rest) ← (bytes (ShareRing.bytes α)).decode bs
    match ShareRing.ofNat? (Bytes.toNatLE front) with
    | some a => .ok (a, rest)
    | none => .error (.element (ShareRing.label α))

end Wire

end Beaver
