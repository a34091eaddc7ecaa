import Confinement.Pass
import Confinement.Proofs.Agreement
import Confinement.Proofs.AuditComplete
import Confinement.Proofs.AuditShapes
import Confinement.Proofs.AuditSound
import Confinement.Proofs.BaseLoad
import Confinement.Proofs.Bodies
import Confinement.Proofs.Bystanders
import Confinement.Proofs.Census
import Confinement.Proofs.Chores
import Confinement.Proofs.Completion
import Confinement.Proofs.Confined
import Confinement.Proofs.Counters
import Confinement.Proofs.Definitions
import Confinement.Proofs.Dominance
import Confinement.Proofs.Folding
import Confinement.Proofs.Growth
import Confinement.Proofs.History
import Confinement.Proofs.Interleaving
import Confinement.Proofs.Inversion
import Confinement.Proofs.Landing
import Confinement.Proofs.Layout
import Confinement.Proofs.Leftovers
import Confinement.Proofs.Lengths
import Confinement.Proofs.Logs
import Confinement.Proofs.Numbering
import Confinement.Proofs.OtherWidths
import Confinement.Proofs.Outcome
import Confinement.Proofs.Placement
import Confinement.Proofs.PlanRules
import Confinement.Proofs.Progress
import Confinement.Proofs.Readings
import Confinement.Proofs.Reads
import Confinement.Proofs.Refusals
import Confinement.Proofs.RegionContract
import Confinement.Proofs.Rejection
import Confinement.Proofs.Replanning
import Confinement.Proofs.Requests
import Confinement.Proofs.Reserve
import Confinement.Proofs.Rewriting
import Confinement.Proofs.Rows
import Confinement.Proofs.Runs
import Confinement.Proofs.Sizes
import Confinement.Proofs.SlotWrites
import Confinement.Proofs.Slots
import Confinement.Proofs.Stepwise
import Confinement.Proofs.Upkeep
import Confinement.Proofs.Valuation
import Confinement.Proofs.WrittenTypes
