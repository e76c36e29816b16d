import CapLang.NameTable.Shared
import CapLang.Value.Identity
import CapLang.Fault.Report
import CapLang.Diagnostic.Render
import CapLang.Runner
import CapLang.Proofs.Steps
import CapLang.Proofs.Balance
import CapLang.Proofs.Unfolding
import CapLang.Proofs.CallTree
import CapLang.Proofs.Termination
import CapLang.Proofs.Stops
import CapLang.Proofs.Origins
import CapLang.Proofs.Provenance
import CapLang.Proofs.Hosts
import CapLang.Proofs.Counting
import CapLang.Proofs.DepthLimit
import CapLang.Proofs.Worlds
import CapLang.Proofs.FreeOccurrences
import CapLang.Proofs.Invariants
import CapLang.Proofs.Scope
import CapLang.Proofs.Akin
import CapLang.Proofs.Tandem
import CapLang.Proofs.Alike
import CapLang.Proofs.Coupling
import CapLang.Proofs.Agreement
import CapLang.Proofs.Confinement
import CapLang.Proofs.Unstamped
import CapLang.Proofs.Isolation
import CapLang.Proofs.Places
import CapLang.Proofs.Shadowing
import CapLang.Proofs.StaticShape
import CapLang.Proofs.Sessions
import CapLang.Proofs.Profiling
import CapLang.Proofs.Aftermath
import CapLang.Proofs.WellFormed
import CapLang.Proofs.Accesses
import CapLang.Proofs.Interning
import CapLang.Proofs.AkinWorlds
import CapLang.Proofs.Renaming
import CapLang.Proofs.Substitution
import CapLang.Proofs.Integers
import CapLang.Proofs.Arithmetic
import CapLang.Proofs.Suffixes
import CapLang.Proofs.Signatures
import CapLang.Proofs.References
import CapLang.Proofs.LinesAndColumns
import CapLang.Proofs.PositionOrder
import CapLang.Proofs.Rebasing
import CapLang.Proofs.Binding
import CapLang.Proofs.Equality
import CapLang.Proofs.Positions
import CapLang.Proofs.RecordEquality
import CapLang.Proofs.HostEquality
import CapLang.Proofs.Matching
import CapLang.Proofs.GroundPatterns
import CapLang.Proofs.Renderings
import CapLang.Proofs.Quoting
import CapLang.Proofs.ValueTexts
