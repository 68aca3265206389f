import EvmAudit.Cli.Exhibit
import EvmAudit.Console.Audits
import EvmAudit.Console.Paths
import EvmAudit.Main
import EvmAudit.Proofs.Searches
import EvmAudit.Proofs.CallDepth
import EvmAudit.Proofs.CallDiscipline
import EvmAudit.Proofs.Collisions
import EvmAudit.Proofs.Coverage
import EvmAudit.Proofs.EndOfCode
import EvmAudit.Proofs.Exhaustion
import EvmAudit.Proofs.CodeSizes
import EvmAudit.Proofs.MemoryFees
import EvmAudit.Proofs.MemoryRuns
import EvmAudit.Proofs.FlowForest
import EvmAudit.Proofs.GasBooks
import EvmAudit.Proofs.DeletedAccounts
import EvmAudit.Proofs.Independence
import EvmAudit.Proofs.JumpTargets
import EvmAudit.Proofs.Merging
import EvmAudit.Proofs.MissedOperands
import EvmAudit.Proofs.SharedOperands
import EvmAudit.Proofs.StackHeights
import EvmAudit.Proofs.ModularPowers
import EvmAudit.Proofs.Observers
import EvmAudit.Proofs.PathConditions
import EvmAudit.Proofs.Precompiles
import EvmAudit.Proofs.Pushes
import EvmAudit.Proofs.Reached
import EvmAudit.Proofs.Recency
import EvmAudit.Proofs.Reviews
import EvmAudit.Proofs.RuntimeCode
import EvmAudit.Proofs.SettledPlaces
import EvmAudit.Proofs.Siblings
import EvmAudit.Proofs.Slots
import EvmAudit.Proofs.SourceMaps
import EvmAudit.Proofs.Simplification
import EvmAudit.Proofs.Records
