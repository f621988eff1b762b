import Beaver.Wire

/-!
# Messages in a stream of bytes

On a connection a message is a frame: its length and then its bytes.  A receiver
limits the length of the frames it accepts; of a longer one it reads only the
length.
-/

namespace Beaver

/-- Why no frame could be received. -/
inductive FrameFault where
  /-- The stream ended before the frame did. -/
  | ended
  /-- The frame is longer than allowed. -/
  | tooLong (length limit : Nat)
  deriving DecidableEq

/-- The wording of a fault. -/
def FrameFault.message : FrameFault → String
  | ended => SystemFault.unexpectedEnd.kind
  | tooLong length limit => s!"frame of {length} bytes exceeds limit of {limit}"

namespace Frame

/-- The longest frame that is accepted unless something else is agreed on. -/
def defaultLimit : Nat := Nat.pow 2 26

/-- The frame of a message. -/
def encode (message : Bytes) : Bytes :=
  Wire.count.encode message.length ++ message

/-- Receives a message from the front of a stream and returns it with the rest of
the stream.  A stream that ends too early is used up. -/
def receive (limit : Nat) (stream : Bytes) : Except FrameFault Bytes × Bytes :=
  match Wire.count.decode stream with
  | .error _ => (.error .ended, [])
  | .ok (length, rest) =>
    if limit < length then (.error (.tooLong length limit), rest)
    else
      match (Wire.bytes length).decode rest with
      | .error _ => (.error .ended, [])
      | .ok (message, rest) => (.ok message, rest)

/-- Receives several messages after each other. -/
def receiveMany (limit : Nat) : Nat → Bytes → List (Except FrameFault Bytes)
  | 0, _ => []
  | n + 1, stream =>
    let (message, rest) := receive limit stream
    message :: receiveMany limit n rest

end Frame

end Beaver
