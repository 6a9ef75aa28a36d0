import Reckon.Session
import Reckon.Tree.Table
import Reckon.Tree.Walks
import Reckon.Scalar
import Reckon.Main
import Reckon.Proofs.Polish.Steps
import Reckon.Proofs.Polish.Language
import Reckon.Proofs.Polish.EmptyGroups
import Reckon.Proofs.Polish.SourceOrder
import Reckon.Proofs.Polish.Root
import Reckon.Proofs.Scan.Claims
import Reckon.Proofs.Polish.Climbing
import Reckon.Proofs.Polish.Precedence
import Reckon.Proofs.Regex.Ends
import Reckon.Proofs.Regex.Matches
import Reckon.Proofs.Scan.Lexeme
import Reckon.Proofs.Scan.Patterns
import Reckon.Proofs.Scan.Words
import Reckon.Proofs.Scan.Marks
import Reckon.Proofs.Scan.Order
import Reckon.Proofs.RoundTrip.Expr
import Reckon.Proofs.RoundTrip.Reading
import Reckon.Proofs.RoundTrip.Trees
import Reckon.Proofs.RoundTrip.Conversion
import Reckon.Proofs.RoundTrip.Parens
import Reckon.Proofs.RoundTrip.Parsing
import Reckon.Proofs.Term.Binding
import Reckon.Proofs.Term.Reading
import Reckon.Proofs.Term.Meaning
import Reckon.Proofs.Term.Kinds
import Reckon.Proofs.Term.Faults
import Reckon.Proofs.Term.Leniency
import Reckon.Proofs.Regex.Slices
import Reckon.Proofs.Scan.Stretches
import Reckon.Proofs.Scan.Parens
import Reckon.Proofs.Check.Diagnostics
import Reckon.Proofs.Check.Report
import Reckon.Proofs.Check.Parens
import Reckon.Proofs.Check.Repair
import Reckon.Proofs.Check.Unread
import Reckon.Proofs.Check.Operands
import Reckon.Proofs.Polish.Enclosures
import Reckon.Proofs.Polish.Hanging
import Reckon.Proofs.Polish.Looseness
import Reckon.Proofs.Check.Separators
import Reckon.Proofs.Call.Arity
import Reckon.Proofs.Call.Contracts
import Reckon.Proofs.Call.Catalog
import Reckon.Proofs.Call.Declarations
import Reckon.Proofs.Plan
import Reckon.Proofs.Check.Counts
import Reckon.Proofs.Scan.Spans
import Reckon.Proofs.Polish.Tokens
import Reckon.Proofs.Polish.Conservation
import Reckon.Proofs.Polish.Frames
import Reckon.Proofs.Polish.Spelling
import Reckon.Proofs.Polish.Arguments
import Reckon.Proofs.Check.Labels
import Reckon.Proofs.Term.Labels
import Reckon.Proofs.Term.Unbound
import Reckon.Proofs.Number.Text
import Reckon.Proofs.CommandLine.Prepare
import Reckon.Proofs.CommandLine.Run
import Reckon.Proofs.Call.Resolve
import Reckon.Proofs.Scan.Layout
import Reckon.Proofs.Scan.Symbols
import Reckon.Proofs.Scan.Readings
import Reckon.Proofs.Tree.Postorder
import Reckon.Proofs.Term.Binder
import Reckon.Proofs.Span
import Reckon.Proofs.Call.Merge
import Reckon.Proofs.Regex.Closes
import Reckon.Proofs.Scan.Writable
import Reckon.Proofs.Tree.Walks
import Reckon.Proofs.Term.Computing
