import Beaver.Config
import Beaver.Connection.Frame
import Beaver.Player

/-!
# Connecting the parties

A party connects to all parties below it and tells each of them its index; it
accepts connections from all parties above it, in whatever order they come, and
learns from what they announce who they are.
-/

namespace Beaver

/-- How a link came about. -/
inductive Connection where
  /-- By connecting to a lower party. -/
  | made (peer : Nat)
  /-- By accepting a connection; connections are numbered as they come. -/
  | accepted (number : Nat)
  deriving DecidableEq

/-- Where a party runs. -/
structure Host where
  /-- Whether the host has a network at all. -/
  online : Bool

/-- Reserves addresses to listen on. -/
def Host.reserve (h : Host) (n : Nat) : Except SystemFault Unit :=
  if n = 0 ∨ h.online then .ok () else .error .unreachable

/-- Connects to an address where nobody listens. -/
def Host.connectClosed (h : Host) : SystemFault :=
  if h.online then .refused else .unreachable

namespace Connection

/-- What a party announces when it connects. -/
def announcement (me : Nat) : Bytes :=
  Wire.count.encode me

/-- The links of a party after it has connected to all lower parties. -/
def lower (me parties : Nat) : List (Option Connection) :=
  (List.range parties).map fun k => if k < me then some (made k) else none

/-- Admits a connection by what it announces: a higher party that is not yet linked. -/
def welcome (me : Nat) (links : List (Option Connection)) (number : Nat) (announced : Bytes) :
    Except SystemFault (List (Option Connection)) :=
  match Wire.count.decode announced with
  | .error _ => .error .unexpectedEnd
  | .ok (peer, _) =>
    if peer ≤ me then .error .invalidData
    else
      match links[peer]? with
      | some none => .ok (links.set peer (some (accepted number)))
      | _ => .error .invalidData

/-- The links of a party after it has admitted as many connections as there are
higher parties. -/
def establish (me parties : Nat) (announced : List Bytes) :
    Except SystemFault (List (Option Connection)) :=
  if parties ≤ me then .error .invalidInput
  else
    (announced.take (parties - 1 - me)).zipIdx.foldlM
      (fun links (bs, number) => welcome me links number bs) (lower me parties)

end Connection

/-- A party that connects to all others by their addresses. -/
def Player.connect (c : Config) (addresses : Nat) (announced : List Bytes) : Except Error Player := do
  c.validate.mapError .config
  if addresses ≠ c.parties then throw (.config (.addresses addresses c.parties))
  let links ← (Connection.establish c.me addresses announced).mapError .system
  Player.ofLinks c.me (links.map (·.isSome))

end Beaver
