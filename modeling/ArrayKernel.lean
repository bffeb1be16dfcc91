import ArrayKernel.Ast.Markup
import ArrayKernel.Ast.Transform
import ArrayKernel.Buffer.Record
import ArrayKernel.CType.Catalog
import ArrayKernel.Datum.Frozen
import ArrayKernel.Datum.Json
import ArrayKernel.Dot.Matrix
import ArrayKernel.Emit.Template
import ArrayKernel.Invocation
import ArrayKernel.Layout.Query
import ArrayKernel.Native.Complex
import ArrayKernel.Native.Lowering
import ArrayKernel.Package
import ArrayKernel.Script.Foreign
import ArrayKernel.Script.Settings
import ArrayKernel.Survey.Code
import ArrayKernel.Survey.Nodes
import ArrayKernel.Survey.Paths
import ArrayKernel.Survey.Types
import ArrayKernel.Text.Lines
import ArrayKernel.Proofs.Agreement
import ArrayKernel.Proofs.ArraySpecification
import ArrayKernel.Proofs.AssignmentCode
import ArrayKernel.Proofs.BroadcastRank
import ArrayKernel.Proofs.ByteOrder
import ArrayKernel.Proofs.Directions
import ArrayKernel.Proofs.Disposal
import ArrayKernel.Proofs.FieldOrder
import ArrayKernel.Proofs.Hygiene
import ArrayKernel.Proofs.Independence
import ArrayKernel.Proofs.InnermostBody
import ArrayKernel.Proofs.InsertionPoints
import ArrayKernel.Proofs.NodeEquality
import ArrayKernel.Proofs.Offsets
import ArrayKernel.Proofs.Overlap
import ArrayKernel.Proofs.PathSteps
import ArrayKernel.Proofs.PointerSums
import ArrayKernel.Proofs.PromotionLaws
import ArrayKernel.Proofs.RaisedErrors
import ArrayKernel.Proofs.SelectedDimensions
import ArrayKernel.Proofs.Separation
import ArrayKernel.Proofs.Temporaries
import ArrayKernel.Proofs.TileSizes
import ArrayKernel.Proofs.Transparency
import ArrayKernel.Proofs.Dimensions
import ArrayKernel.Proofs.LoopMarks
import ArrayKernel.Proofs.TileCoverage
