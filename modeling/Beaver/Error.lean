import Beaver.Text.Quoted

/-!
# What can go wrong

Errors are causes; their wording is in one place.  They fall into the groups that
a caller has to tell apart: broken links, detected cheating, failed sacrifices,
unusable parameters, data of the wrong shape, and preprocessing files that are
missing or do not fit.

A fault is different: it stands for an operation that was used outside its domain,
such as an index past the end, and that has no answer at all.
-/

namespace Beaver

/-- The kind of cheating that a check has detected. -/
inductive Cheat where
  | correlation
  | consistency
  | tag
  | commitment
  | broadcast
  deriving DecidableEq

/-- The wording of a detected deviation. -/
def Cheat.message : Cheat → String
  | correlation => "OT extension correlation check failed"
  | consistency => "VOLE consistency check failed"
  | tag => "MAC check of opened values failed"
  | commitment => "commitment could not be opened"
  | broadcast => "inconsistent broadcast"

/-- Why received bytes are not the encoding of a value. -/
inductive Malformed where
  /-- The data ends inside a value of fixed size. -/
  | truncated
  /-- The data ends inside a text. -/
  | truncatedText
  /-- A byte other than 0 and 1 stands for a truth value. -/
  | flag (b : UInt8)
  /-- A byte other than 0 and 1 says whether a value follows. -/
  | tag (b : UInt8)
  /-- The bytes of a text are not text. -/
  | text (valid : Nat) (invalid : Option Nat)
  /-- No ring element is represented. -/
  | element (label : String)
  /-- A matrix has the wrong number of rows. -/
  | rows (expected actual : Nat)
  /-- A bit square has the wrong number of bytes. -/
  | square (actual : Nat)
  /-- A duration is out of range. -/
  | duration
  deriving DecidableEq

/-- The wording of a malformed encoding. -/
def Malformed.message : Malformed → String
  | truncated => "Io(Kind(UnexpectedEof))"
  | truncatedText => "Io(Custom \x7b kind: UnexpectedEof, error: \"\" \x7d)"
  | flag b => s!"InvalidBoolEncoding({b.toNat})"
  | tag b => s!"InvalidTagEncoding({b.toNat})"
  | text valid invalid =>
    let size := match invalid with
      | none => "None"
      | some n => s!"Some({n})"
    s!"InvalidUtf8Encoding(Utf8Error \x7b valid_up_to: {valid}, error_len: {size} \x7d)"
  | element label => s!"Custom(\"invalid encoding of {label}\")"
  | rows expected actual => s!"Custom(\"expected {expected} elements, got {actual}\")"
  | square actual => s!"Custom(\"invalid length {actual}, expected 2048 bytes\")"
  | duration => "Custom(\"overflow deserializing Duration\")"

/-- What went wrong on a link. -/
inductive LinkFault where
  /-- The other end is gone. -/
  | closed
  /-- The message is no encoding of the expected value. -/
  | malformed (why : Malformed)
  /-- The message is a list of another length. -/
  | length (expected actual : Nat)
  deriving DecidableEq

/-- Why a run cannot use its parameters. -/
inductive ConfigFault where
  | tooFewParties (n : Nat)
  | noSuchParty (party n : Nat)
  | baseTransfers (n : Nat)
  | emptyBatch
  | emptySacrifice
  | unauthenticated
  | noPlace (party n : Nat)
  | wrongLink (me peer : Nat)
  | addresses (given parties : Nat)
  | amortize
  | columns (n : Nat)
  | noKeyHere
  | noKey
  | wrongPlayer (me n configuredMe configuredN : Nat)
  deriving DecidableEq

/-- The wording of unusable parameters. -/
def ConfigFault.message : ConfigFault → String
  | tooFewParties n => s!"at least 2 parties are required, got {n}"
  | noSuchParty party n => s!"party {party} does not exist in a {n}-party computation"
  | baseTransfers n => s!"the OT extension needs exactly 128 base OTs, got {n}"
  | emptyBatch => "batch size must not be 0"
  | emptySacrifice => "amortize must not be 0"
  | unauthenticated => "malicious security requires MACs, set `passive` or `generate_macs`"
  | noPlace party n => s!"party {party} cannot take part in a {n}-party computation"
  | wrongLink me peer => s!"invalid link from {me} to {peer}"
  | addresses given parties => s!"{given} addresses given for {parties} parties"
  | amortize => "amortize must be positive"
  | columns n => s!"the VOLE check needs at least 2 columns, got {n}"
  | noKeyHere => "MACs are disabled for this multiplier"
  | noKey => "MACs are disabled in this configuration"
  | wrongPlayer me n configuredMe configuredN =>
    s!"player {me} of {n} does not match the configured party {configuredMe} of {configuredN}"

/-- Use of an object out of turn. -/
inductive Misuse where
  | noLink
  | slice
  | evenCharacteristic
  | secondTransfer
  | noTransfer
  | receiverOrder
  | senderOrder
  | noBase
  | baseTaken
  | tagsForProducts
  | productsForTags
  deriving DecidableEq

/-- The wording of a use out of turn. -/
def Misuse.message : Misuse → String
  | noLink => "no link to peer"
  | slice => "bit matrix slice out of range"
  | evenCharacteristic => "2 is not invertible"
  | secondTransfer => "base OTs can only be executed once"
  | noTransfer => "base OTs have not been executed"
  | receiverOrder => "OT extension receiver called out of order"
  | senderOrder => "OT extension sender called out of order"
  | noBase => "no base OTs for peer"
  | baseTaken => "base OTs for peer missing or already taken"
  | tagsForProducts => "multiplier returned MACs for products"
  | productsForTags => "multiplier returned products for MACs"

/-- Why a file or a connection cannot be used. -/
inductive SystemFault where
  | notFound
  | unexpectedEnd
  | alreadyExists
  | isDirectory
  | notDirectory
  | invalidData
  | invalidInput
  | invalidName
  | refused
  | unreachable
  deriving DecidableEq

/-- The name of the kind of a system fault. -/
def SystemFault.kind : SystemFault → String
  | notFound => "NotFound"
  | unexpectedEnd => "UnexpectedEof"
  | alreadyExists => "AlreadyExists"
  | isDirectory => "IsADirectory"
  | notDirectory => "NotADirectory"
  | invalidData => "InvalidData"
  | invalidInput => "InvalidInput"
  | invalidName => "InvalidFilename"
  | refused => "ConnectionRefused"
  | unreachable => "NetworkUnreachable"

/-- An error of a preprocessing protocol. -/
inductive Error where
  /-- A message could not be received or understood in a phase of the protocol. -/
  | link (phase : String) (fault : LinkFault)
  /-- A peer deviated from the protocol. -/
  | cheat (c : Cheat)
  /-- A pair of a sacrifice batch was wrong. -/
  | sacrifice (batch index : Nat)
  /-- The parameters are unusable. -/
  | config (fault : ConfigFault)
  /-- A list has the wrong length. -/
  | length (expected actual : Nat)
  /-- A received base transfer message is no group element. -/
  | transfer
  /-- Packed data could not be decoded. -/
  | encoding (label : String)
  /-- A file holds other data. -/
  | signature (path expected found : String)
  /-- A file ran out of data. -/
  | exhausted (path : String)
  /-- A file or a connection failed. -/
  | system (fault : SystemFault)
  /-- The worker for a peer has stopped. -/
  | stopped (peer : Nat)
  /-- An object was used out of turn. -/
  | misuse (m : Misuse)
  /-- The ring lacks the operation. -/
  | unsupported (operation : String)
  deriving DecidableEq

/-- The name of the kind of an error. -/
def Error.kind : Error → String
  | link .. => "Channel"
  | cheat _ => "MaliciousBehavior"
  | sacrifice .. => "OfflineCheck"
  | config _ => "Config"
  | length .. => "InvalidLength"
  | transfer => "InvalidOtData"
  | encoding _ => "InvalidEncoding"
  | signature .. => "SignatureMismatch"
  | exhausted _ => "InsufficientPreprocessing"
  | system _ => "Io"
  | stopped _ => "WorkerTerminated"
  | misuse _ => "Bug"
  | unsupported _ => "unsupported"

/-- The wording of an error. -/
def Error.message : Error → String
  | link phase .closed => s!"channel error: receive failed: Closed (phase: {phase})"
  | link phase (.malformed why) =>
    let text := why.message
    s!"channel error: serialization failed: {text} (phase: receiving {phase})"
  | link phase (.length expected actual) =>
    s!"channel error: expected {expected} elements, got {actual} (phase: {phase})"
  | cheat c =>
    let text := c.message
    s!"malicious behavior detected: {text}"
  | sacrifice batch index =>
    s!"sacrifice check failed in batch {batch} (first bad pair: {index})"
  | config fault =>
    let text := fault.message
    s!"invalid configuration: {text}"
  | length expected actual => s!"expected {expected} elements, got {actual}"
  | transfer => "invalid base OT data"
  | encoding label => s!"invalid encoding of {label}"
  | signature path expected found =>
    let path := Text.quoted path
    let expected := Text.quoted expected
    let found := Text.quoted found
    s!"signature mismatch in {path}: expected {expected}, found {found}"
  | exhausted path =>
    let path := Text.quoted path
    s!"insufficient preprocessing in {path}, re-run the offline phase"
  | system fault => fault.kind
  | stopped peer => s!"multiplier for party {peer} terminated"
  | misuse m =>
    let text := m.message
    s!"bug: {text}"
  | unsupported operation => operation

/-- Why an operation has no result. -/
inductive Failure where
  /-- The operation was used outside its domain. -/
  | fault
  /-- The operation failed with an error. -/
  | error (e : Error)
  deriving DecidableEq

/-- Succeeds only on equal lengths. -/
def checkLength (expected actual : Nat) : Except Error Unit :=
  if expected = actual then .ok () else .error (.length expected actual)

end Beaver
