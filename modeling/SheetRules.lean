import SheetRules.Batch.Basic
import SheetRules.Batch.Options
import SheetRules.Command.Args
import SheetRules.Command.Basic
import SheetRules.Command.Disk
import SheetRules.Command.Effects
import SheetRules.Compile.Basic
import SheetRules.Compile.Lower
import SheetRules.Compile.Macros
import SheetRules.Compile.Session
import SheetRules.Diagnostic.Basic
import SheetRules.Diagnostic.Cause
import SheetRules.Diagnostic.Wire
import SheetRules.Document.Codec
import SheetRules.Document.Load
import SheetRules.Document.TypeScript
import SheetRules.Feature.Basic
import SheetRules.Feature.Cursor
import SheetRules.Feature.ExprParser
import SheetRules.Feature.Parser
import SheetRules.Feature.Stream
import SheetRules.Json.Basic
import SheetRules.Json.Reader
import SheetRules.Json.Skip
import SheetRules.Json.Writer
import SheetRules.Main
import SheetRules.Number.Arithmetic
import SheetRules.Number.Decimal
import SheetRules.Number.Double
import SheetRules.Number.Format
import SheetRules.Number.Numeral
import SheetRules.Source.Basic
import SheetRules.Source.Span
import SheetRules.Source.Table
import SheetRules.Store.Basic
import SheetRules.Store.RunError
import SheetRules.Text.Bytes
import SheetRules.Text.Split
import SheetRules.Token.Basic
import SheetRules.Token.Piece
import SheetRules.Token.Scan
import SheetRules.Tree.Basic
import SheetRules.Tree.Eval
import SheetRules.Proofs.Batch.Commuting
import SheetRules.Proofs.Batch.Configs
import SheetRules.Proofs.Batch.Errors
import SheetRules.Proofs.Batch.Execution
import SheetRules.Proofs.Batch.Order
import SheetRules.Proofs.Batch.Policies
import SheetRules.Proofs.Batch.Rerun
import SheetRules.Proofs.Batch.Runs
import SheetRules.Proofs.Batch.Stability
import SheetRules.Proofs.Chains
import SheetRules.Proofs.Command.Files
import SheetRules.Proofs.Command.Flags
import SheetRules.Proofs.Command.Results
import SheetRules.Proofs.Compile.Clean
import SheetRules.Proofs.Compile.Faults
import SheetRules.Proofs.Compile.FloorDivision
import SheetRules.Proofs.Compile.Outcomes
import SheetRules.Proofs.Compile.Session
import SheetRules.Proofs.Compile.Soundness
import SheetRules.Proofs.Diagnostic.Capacity
import SheetRules.Proofs.Diagnostic.Lines
import SheetRules.Proofs.Diagnostic.Report
import SheetRules.Proofs.Document.FirstFault
import SheetRules.Proofs.Document.Nesting
import SheetRules.Proofs.Document.Pointers
import SheetRules.Proofs.Document.RoundTrip
import SheetRules.Proofs.Document.Schema
import SheetRules.Proofs.Feature.Completeness
import SheetRules.Proofs.Feature.Depth
import SheetRules.Proofs.Feature.ExactSpans
import SheetRules.Proofs.Feature.Lines
import SheetRules.Proofs.Feature.Mirrors
import SheetRules.Proofs.Feature.Moving
import SheetRules.Proofs.Feature.Occurrences
import SheetRules.Proofs.Feature.Outline
import SheetRules.Proofs.Feature.Paths
import SheetRules.Proofs.Feature.ProperPaths
import SheetRules.Proofs.Feature.Reading
import SheetRules.Proofs.Feature.Runs
import SheetRules.Proofs.Feature.SideBySide
import SheetRules.Proofs.Feature.Soundness
import SheetRules.Proofs.Feature.Spans
import SheetRules.Proofs.Feature.Spelling
import SheetRules.Proofs.Feature.Steps
import SheetRules.Proofs.Feature.Stream
import SheetRules.Proofs.Json.Reading
import SheetRules.Proofs.Lowering.Budget
import SheetRules.Proofs.Lowering.Derivation
import SheetRules.Proofs.Lowering.Meaning
import SheetRules.Proofs.Lowering.NormalForm
import SheetRules.Proofs.Macros.Abbreviation
import SheetRules.Proofs.Macros.Expansion
import SheetRules.Proofs.Macros.Inlining
import SheetRules.Proofs.Macros.Latest
import SheetRules.Proofs.Macros.Recursion
import SheetRules.Proofs.Number.Integers
import SheetRules.Proofs.Number.Laws
import SheetRules.Proofs.Number.Operations
import SheetRules.Proofs.Number.Packing
import SheetRules.Proofs.Number.Rounding
import SheetRules.Proofs.Number.Series
import SheetRules.Proofs.Number.Texts
import SheetRules.Proofs.Number.TotalOrder
import SheetRules.Proofs.Source.Inside
import SheetRules.Proofs.Source.Joining
import SheetRules.Proofs.Source.Partition
import SheetRules.Proofs.Source.Places
import SheetRules.Proofs.Source.Table
import SheetRules.Proofs.Store.Fields
import SheetRules.Proofs.Store.Nodes
import SheetRules.Proofs.Store.Writes
import SheetRules.Proofs.Text.Cuts
import SheetRules.Proofs.Token.Lexemes
import SheetRules.Proofs.Token.Order
import SheetRules.Proofs.Token.Pieces
import SheetRules.Proofs.Token.Printing
import SheetRules.Proofs.Tree.Limits
import SheetRules.Proofs.Tree.OperandOrder
