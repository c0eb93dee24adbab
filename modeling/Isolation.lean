import Isolation.Main
import Isolation.Proofs.Precedence.Pruning
import Isolation.Proofs.Graph.Laws
import Isolation.Proofs.Precedence.Gathering
import Isolation.Proofs.Audit.Conflicts
import Isolation.Proofs.Reduction.Flattening
import Isolation.Proofs.Witness.Executions
import Isolation.Proofs.Transcript.Faults
import Isolation.Proofs.Transcript.RoundTrip
import Isolation.Proofs.Recorded.Numbering
import Isolation.Proofs.Generator.Serial
import Isolation.Proofs.Precedence.Rounds
import Isolation.Proofs.Precedence.Accounts
import Isolation.Proofs.Graph.Agreement
import Isolation.Proofs.BinaryLog.Delimiting
import Isolation.Proofs.BinaryLog.Attribution
import Isolation.Proofs.History.Reloading
import Isolation.Proofs.Reduction.Shape
import Isolation.Proofs.Generator.Snapshots
import Isolation.Proofs.Graph.MatrixOrder
import Isolation.Proofs.Graph.NodeMatrix
