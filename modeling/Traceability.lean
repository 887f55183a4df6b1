import Traceability.Disk.Memory
import Traceability.Main
import Traceability.Proofs.Claim.Comments
import Traceability.Proofs.Claim.Delimited
import Traceability.Proofs.Claim.Identifiers
import Traceability.Proofs.Claim.Markers
import Traceability.Proofs.Claim.Registration
import Traceability.Proofs.Claim.Remainder
import Traceability.Proofs.Claim.Rendering
import Traceability.Proofs.Coverage.Acyclic
import Traceability.Proofs.Coverage.Broken
import Traceability.Proofs.Coverage.Growth
import Traceability.Proofs.Coverage.Splitting
import Traceability.Proofs.Digest.Appearance
import Traceability.Proofs.Digest.Assertions
import Traceability.Proofs.FileOrder
import Traceability.Proofs.Graph.Changes
import Traceability.Proofs.Graph.Duplicates
import Traceability.Proofs.Graph.History
import Traceability.Proofs.Graph.References
import Traceability.Proofs.Graph.WrittenLines
import Traceability.Proofs.Line.FunctionNames
import Traceability.Proofs.Repair.Anchors
import Traceability.Proofs.Repair.Convergence
import Traceability.Proofs.Repair.Isolation
import Traceability.Proofs.Repair.LineEnds
import Traceability.Proofs.Repair.Locality
import Traceability.Proofs.Repair.Placement
import Traceability.Proofs.Rule.Battery
import Traceability.Proofs.Rule.Hierarchy
import Traceability.Proofs.Rule.Levels
import Traceability.Proofs.Rule.Orphans
import Traceability.Proofs.Rule.Ownership
import Traceability.Proofs.Rule.Recognition
import Traceability.Proofs.Rule.Sequence
import Traceability.Proofs.Rule.WrittenReferences
import Traceability.Proofs.Scheme.Spelling
import Traceability.Proofs.TrailingBlanks
