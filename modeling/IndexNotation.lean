import IndexNotation.Axis.Basic
import IndexNotation.Axis.Catalog
import IndexNotation.Command.Arguments
import IndexNotation.Command.Files
import IndexNotation.Command.Invocation
import IndexNotation.Command.Request
import IndexNotation.Config
import IndexNotation.Element.Code
import IndexNotation.Element.Placing
import IndexNotation.Error
import IndexNotation.Exec.Loops
import IndexNotation.Exec.Reducer
import IndexNotation.Format.Archive
import IndexNotation.Format.ArrayFile
import IndexNotation.Format.Bytes
import IndexNotation.Format.Column
import IndexNotation.Format.Json
import IndexNotation.Format.Listing
import IndexNotation.Format.Table
import IndexNotation.Kernel.Basic
import IndexNotation.Kernel.Run
import IndexNotation.Kernel.Settings
import IndexNotation.Log
import IndexNotation.Main
import IndexNotation.Number.Binary
import IndexNotation.Number.Complex
import IndexNotation.Number.Reader
import IndexNotation.Number.Root
import IndexNotation.Number.Shortest
import IndexNotation.Plan.Basic
import IndexNotation.Plan.Build
import IndexNotation.Range
import IndexNotation.Reference
import IndexNotation.Schedule.Reduction
import IndexNotation.Schedule.Tiling
import IndexNotation.Syntax.Canonical
import IndexNotation.Syntax.Cursor
import IndexNotation.Syntax.Expr
import IndexNotation.Syntax.Literal
import IndexNotation.Syntax.Numeral
import IndexNotation.Syntax.Parser
import IndexNotation.Syntax.Printer
import IndexNotation.Syntax.Statement
import IndexNotation.Text.Blank
import IndexNotation.Text.Digit
import IndexNotation.Text.Printable
import IndexNotation.Text.Quoted
import IndexNotation.Value.Access
import IndexNotation.Value.Arithmetic
import IndexNotation.Value.Assign
import IndexNotation.Value.Basic
import IndexNotation.Value.Dense
import IndexNotation.Value.ElemType
import IndexNotation.Value.Library
import IndexNotation.Value.Plain
import IndexNotation.Value.Scalar
import IndexNotation.Proofs.Axes
import IndexNotation.Proofs.Bounds
import IndexNotation.Proofs.Catalogs
import IndexNotation.Proofs.Cells
import IndexNotation.Proofs.Forecast
import IndexNotation.Proofs.Independence
import IndexNotation.Proofs.Meaning
import IndexNotation.Proofs.Coverage
import IndexNotation.Proofs.Derivations
import IndexNotation.Proofs.Recognition
import IndexNotation.Proofs.Parsing
import IndexNotation.Proofs.Numerals
import IndexNotation.Proofs.Printing
import IndexNotation.Proofs.Reparsing
import IndexNotation.Proofs.Failures
import IndexNotation.Proofs.Interleaving
import IndexNotation.Proofs.Unrolling
import IndexNotation.Proofs.Untiling
import IndexNotation.Proofs.Naming
import IndexNotation.Proofs.Nesting
import IndexNotation.Proofs.Residues
import IndexNotation.Proofs.Updates
import IndexNotation.Proofs.Clauses
import IndexNotation.Proofs.Verdicts
import IndexNotation.Proofs.Lookups
import IndexNotation.Proofs.Renaming
import IndexNotation.Proofs.RenamedStatements
import IndexNotation.Proofs.RenamedRuns
import IndexNotation.Proofs.BoundNames
import IndexNotation.Proofs.ReadingOrder
import IndexNotation.Proofs.Events
import IndexNotation.Proofs.StoresLast
import IndexNotation.Proofs.NewArrays
import IndexNotation.Proofs.Extremes
import IndexNotation.Proofs.Twins
import IndexNotation.Proofs.Mirroring
import IndexNotation.Proofs.PureLibrary
import IndexNotation.Proofs.AxisSources
import IndexNotation.Proofs.Partition
import IndexNotation.Proofs.Roots
import IndexNotation.Proofs.CanonicalForms
import IndexNotation.Proofs.JsonTexts
import IndexNotation.Proofs.DataFiles
