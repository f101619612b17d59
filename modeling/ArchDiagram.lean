import ArchDiagram.Main
import ArchDiagram.Viewer
import ArchDiagram.Proofs.Flattening
import ArchDiagram.Proofs.Anchors
import ArchDiagram.Proofs.Binary64.Readback
import ArchDiagram.Proofs.Document.Numbers
import ArchDiagram.Proofs.Document.Blocks
import ArchDiagram.Proofs.Document.RoundTrip
import ArchDiagram.Proofs.Document.Formatting
import ArchDiagram.Proofs.Viewer.Freshness
import ArchDiagram.Proofs.Viewer.Histories
import ArchDiagram.Proofs.Viewer.Reloading
import ArchDiagram.Proofs.DrillDown
import ArchDiagram.Proofs.InProgress
import ArchDiagram.Proofs.Viewer.Homonyms
import ArchDiagram.Proofs.Viewer.Mirroring
import ArchDiagram.Proofs.Graph
import ArchDiagram.Proofs.Lint.Missing
import ArchDiagram.Proofs.Repetition
import ArchDiagram.Proofs.Lint.Groups
import ArchDiagram.Proofs.Document.Indentation
import ArchDiagram.Proofs.Placing
import ArchDiagram.Proofs.Contributions
import ArchDiagram.Proofs.Document.Exchange
import ArchDiagram.Proofs.LayoutOrder
import ArchDiagram.Proofs.Aggregation
import ArchDiagram.Proofs.Lint.Anchors
import ArchDiagram.Proofs.SwapTables
import ArchDiagram.Proofs.Document.EmptyOverrides
import ArchDiagram.Proofs.Document.Joining
import ArchDiagram.Proofs.Document.Ownership
import ArchDiagram.Proofs.Document.Faults
import ArchDiagram.Proofs.Document.Literals
import ArchDiagram.Proofs.Json.Preservation
import ArchDiagram.Proofs.Json.Kinds
import ArchDiagram.Proofs.Text.Placeholders
import ArchDiagram.Proofs.Filling
import ArchDiagram.Proofs.Document.Quoting
import ArchDiagram.Proofs.Document.Spellings
import ArchDiagram.Proofs.InstanceNames
