import Beaver.Block
import Beaver.Error
import Beaver.Random.Keystream
import Beaver.Wire

/-!
# Strings of bits

Choice bits are packed eight to a byte, the first in the lowest place.  A string
is well formed if it has just as many bytes as its bits need and the places past
its last bit are clear.  Every operation keeps strings well formed; only a message
may bring in another one, whose bits may then not all be there.
-/

namespace Beaver

/-- Packed bits. -/
structure BitString where
  bytes : Bytes
  length : Nat
  deriving DecidableEq

namespace BitString

/-- The number of bytes that hold so many bits. -/
def bytesFor (length : Nat) : Nat :=
  (length + 7) / 8

/-- No bits. -/
def empty : BitString := ⟨[], 0⟩

/-- Clear bits. -/
def zeros (length : Nat) : BitString :=
  ⟨List.replicate (bytesFor length) 0, length⟩

/-- Clears the places of the last byte past the last bit. -/
def clearPadding (v : BitString) : BitString :=
  match v.length % 8, v.bytes.getLast? with
  | 0, _ | _, none => v
  | r, some last =>
    { v with bytes := v.bytes.dropLast ++ [last &&& UInt8.ofNat (Nat.pow 2 r - 1)] }

/-- The bits of a byte, the lowest first. -/
def byteBits (b : UInt8) : List Bool :=
  (List.range 8).map b.toNat.testBit

/-- The byte with the given bits, the lowest first. -/
def byteOf (bs : List Bool) : UInt8 :=
  UInt8.ofNat (bs.foldr (fun b n => b.toNat + 2 * n) 0)

/-- The bytes with the given bits. -/
def pack : List Bool → Bytes
  | b0 :: b1 :: b2 :: b3 :: b4 :: b5 :: b6 :: b7 :: rest =>
    byteOf [b0, b1, b2, b3, b4, b5, b6, b7] :: pack rest
  | [] => []
  | bs => [byteOf bs]

/-- The string of the given bits. -/
def ofBits (bs : List Bool) : BitString :=
  ⟨pack bs, bs.length⟩

/-- The first bits of as many bytes as they need. -/
def ofBytes (bytes : Bytes) (length : Nat) : Except Error BitString := do
  checkLength (bytesFor length) bytes.length
  .ok (clearPadding ⟨bytes, length⟩)

/-- Random bits, drawn as whole bytes. -/
def random (length : Nat) (s : Keystream) : BitString × Keystream :=
  let (bytes, s) := s.fill (bytesFor length)
  (clearPadding ⟨bytes, length⟩, s)

/-- The bits; where bytes are missing there are fewer than the length says. -/
def bits (v : BitString) : List Bool :=
  (v.bytes.flatMap byteBits).take v.length

/-- The bits, all of which have to be there. -/
def bits? (v : BitString) : Option (List Bool) :=
  if bytesFor v.length ≤ v.bytes.length then some v.bits else none

/-- The bit at a position, which has to be there. -/
def get? (v : BitString) (i : Nat) : Option Bool :=
  if i < v.length then (v.bytes[i / 8]?).map fun b => b.toNat.testBit (i % 8) else none

/-- The byte with one bit replaced. -/
def setBit (b : UInt8) (i : Nat) (bit : Bool) : UInt8 :=
  (b &&& ~~~(1 <<< UInt8.ofNat i)) ||| (UInt8.ofNat bit.toNat <<< UInt8.ofNat i)

/-- The string with the bit at a position replaced, which has to be there. -/
def set? (v : BitString) (i : Nat) (bit : Bool) : Option BitString :=
  if i < v.length then
    (v.bytes[i / 8]?).map fun b => { v with bytes := v.bytes.set (i / 8) (setBit b (i % 8) bit) }
  else none

/-- The bits in stretch `i` of `width` bytes, padded with clear ones, if the
position of the stretch is a machine word. -/
def stretch? (width : Nat) (v : BitString) (i : Nat) : Option Bytes :=
  if width * (i + 1) < Nat.pow 2 64 then
    let part := (v.bytes.drop (width * i)).take width
    some (part ++ List.replicate (width - part.length) 0)
  else none

/-- Bits `128 * i` and following as a block. -/
def block? (v : BitString) (i : Nat) : Option Block :=
  (v.stretch? 16 i).map Block.ofBytes

/-- Bits `64 * i` and following as a word. -/
def word? (v : BitString) (i : Nat) : Option Nat :=
  (v.stretch? 8 i).map Bytes.toNatLE

/-- The first `n` blocks of bits, padded with clear ones. -/
def blocks : Nat → Bytes → List Block
  | 0, _ => []
  | n + 1, bytes => Block.ofBytes bytes :: blocks n (bytes.drop 16)

/-- A string of another length; new bits are clear. -/
def resize (v : BitString) (length : Nat) : BitString :=
  let n := bytesFor length
  clearPadding ⟨v.bytes.take n ++ List.replicate (n - v.bytes.length) 0, length⟩

/-- Bitwise or; where one side has no byte the other's is kept. -/
def orBytes : Bytes → Bytes → Bytes
  | [], bs => bs
  | as, [] => as
  | a :: as, b :: bs => (a ||| b) :: orBytes as bs

/-- Sets bits from a position on wherever the other bits are set. -/
def orFrom (v : BitString) (offset : Nat) (bs : List Bool) : BitString :=
  let shifted := pack (List.replicate (offset % 8) false ++ bs)
  { v with bytes := v.bytes.take (offset / 8) ++ orBytes (v.bytes.drop (offset / 8)) shifted }

/-- The bits of both strings.  A length past the machine word is a fault, and so is
a bit of the second string that is not there; the bits before it have then been
appended. -/
def append (v w : BitString) : BitString × Option Failure :=
  if v.length + w.length < Nat.pow 2 64 then
    let joined := (v.resize (v.length + w.length)).orFrom v.length w.bits
    (joined, if w.bits?.isSome then none else some .fault)
  else (v, some .fault)

/-- Bitwise exclusive or of strings of one length. -/
def xor? (v w : BitString) : Option BitString :=
  if v.length = w.length then
    some { v with bytes := Bytes.xor v.bytes w.bytes ++ v.bytes.drop w.bytes.length }
  else none

/-- The length, then the bytes. -/
def toBytes (v : BitString) : Bytes :=
  Bytes.ofNatLE 8 v.length ++ v.bytes

/-- Reads a well-formed string from the front and says how many bytes it took. -/
def read (bs : Bytes) : Except Error (BitString × Nat) := do
  let invalid := Error.encoding "BitVector"
  let header := bs.take 8
  if header.length ≠ 8 then throw invalid
  let length := Bytes.toNatLE header
  let n := bytesFor length
  let data := (bs.drop 8).take n
  if data.length ≠ n then throw invalid
  let v ← ofBytes data length
  if v.bytes ≠ data then throw invalid
  .ok (v, 8 + n)

/-- In a message the bytes come first, and nothing is checked. -/
def wire : Wire BitString :=
  (Wire.pair (Wire.list ((Wire.bytes 1).map (fun b => b.headD 0) ([·]))) Wire.count).map
    (fun p => ⟨p.1, p.2⟩) (fun v => (v.bytes, v.length))

end BitString

end Beaver
