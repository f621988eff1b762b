import Beaver.Bytes.Hex
import Beaver.PrepFile.Desk
import Beaver.Proofs.CommonCalls
import Beaver.Proofs.Connections
import Beaver.Proofs.Faults.Unpacking
import Beaver.Proofs.Generator.FanOut
import Beaver.Proofs.Generator.Requests
import Beaver.Proofs.Keystream.Reuse
import Beaver.Proofs.Keystream.Width
import Beaver.Proofs.LinearEvaluation.Consistency
import Beaver.Proofs.Messages.Frames
import Beaver.Proofs.PrepFile.FailedReads
import Beaver.Proofs.PrepFile.Paths
import Beaver.Proofs.RectangleTranspose
import Beaver.Proofs.Sacrifice.Account
import Beaver.Proofs.Sacrifice.Derived
import Beaver.Proofs.TossAgreement
import Beaver.Proofs.Transfer.Base
import Beaver.Proofs.Transfer.Tweaks
import Beaver.Sacrifice.Storage
import Beaver.Transfer.Pair
