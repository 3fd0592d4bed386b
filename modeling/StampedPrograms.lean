import StampedPrograms.Binary64.Basic
import StampedPrograms.Binary64.Nearest
import StampedPrograms.Binary64.Shortest
import StampedPrograms.Binary64.Text
import StampedPrograms.Carrier
import StampedPrograms.Codec
import StampedPrograms.Compiled
import StampedPrograms.Datum
import StampedPrograms.Decimal.Basic
import StampedPrograms.Decimal.Layout
import StampedPrograms.Digest
import StampedPrograms.Effect.Handler
import StampedPrograms.Effect.Store
import StampedPrograms.Entries
import StampedPrograms.Error
import StampedPrograms.Expr.Basic
import StampedPrograms.Expr.Compliance
import StampedPrograms.Expr.Document
import StampedPrograms.Expr.Lowering
import StampedPrograms.Expr.Parser
import StampedPrograms.Json.Basic
import StampedPrograms.Json.Datum
import StampedPrograms.Json.Printer
import StampedPrograms.Json.Readable
import StampedPrograms.Json.Reader
import StampedPrograms.Policy
import StampedPrograms.Program.Action
import StampedPrograms.Program.Admission
import StampedPrograms.Program.Basic
import StampedPrograms.Program.Run
import StampedPrograms.Proofs.Binary64.CanonicalNumber
import StampedPrograms.Proofs.Binary64.Integers
import StampedPrograms.Proofs.Binary64.Order
import StampedPrograms.Proofs.Binary64.Rounding
import StampedPrograms.Proofs.Binary64.Shortest
import StampedPrograms.Proofs.Binary64.TextReading
import StampedPrograms.Proofs.Binary64.Ties
import StampedPrograms.Proofs.Compiled
import StampedPrograms.Proofs.Compiled.Embedded
import StampedPrograms.Proofs.Compiled.Options
import StampedPrograms.Proofs.Compiled.Spacing
import StampedPrograms.Proofs.Component
import StampedPrograms.Proofs.Datum
import StampedPrograms.Proofs.Datum.Defects
import StampedPrograms.Proofs.Datum.Denotes
import StampedPrograms.Proofs.Decimal.Layout
import StampedPrograms.Proofs.Decimal.Value
import StampedPrograms.Proofs.Digest
import StampedPrograms.Proofs.Effect.Handler
import StampedPrograms.Proofs.Effect.History
import StampedPrograms.Proofs.Effect.RowIds
import StampedPrograms.Proofs.Effect.Spelling
import StampedPrograms.Proofs.Effect.Store
import StampedPrograms.Proofs.Entries
import StampedPrograms.Proofs.Error
import StampedPrograms.Proofs.Expr.Bookkeeping
import StampedPrograms.Proofs.Expr.Calls
import StampedPrograms.Proofs.Expr.Compliance
import StampedPrograms.Proofs.Expr.Grammar
import StampedPrograms.Proofs.Expr.Height
import StampedPrograms.Proofs.Expr.Identity
import StampedPrograms.Proofs.Expr.Lowering
import StampedPrograms.Proofs.Expr.Machine
import StampedPrograms.Proofs.Expr.Nesting
import StampedPrograms.Proofs.Expr.Nodes
import StampedPrograms.Proofs.Expr.OffendingToken
import StampedPrograms.Proofs.Expr.Parser
import StampedPrograms.Proofs.Expr.ReadBack
import StampedPrograms.Proofs.Expr.Returns
import StampedPrograms.Proofs.Expr.Script
import StampedPrograms.Proofs.Expr.Size
import StampedPrograms.Proofs.Identity
import StampedPrograms.Proofs.Json.Alike
import StampedPrograms.Proofs.Json.Datum
import StampedPrograms.Proofs.Json.Equality
import StampedPrograms.Proofs.Json.Numeral
import StampedPrograms.Proofs.Json.Readable
import StampedPrograms.Proofs.Json.TextReading
import StampedPrograms.Proofs.Normalization
import StampedPrograms.Proofs.Policy.Normal
import StampedPrograms.Proofs.Policy.Presentation
import StampedPrograms.Proofs.Program.Action
import StampedPrograms.Proofs.Program.Behaviour
import StampedPrograms.Proofs.Program.Calls
import StampedPrograms.Proofs.Program.Identity
import StampedPrograms.Proofs.Program.Normal
import StampedPrograms.Proofs.Program.Outcome
import StampedPrograms.Proofs.Program.Progress
import StampedPrograms.Proofs.Program.Run
import StampedPrograms.Proofs.Program.Spelling
import StampedPrograms.Proofs.Program.Step
import StampedPrograms.Proofs.Program.Storage
import StampedPrograms.Proofs.Program.Thinning
import StampedPrograms.Proofs.Program.WellFormed
import StampedPrograms.Proofs.Stamp.Comparison
import StampedPrograms.Proofs.Stamp.Difference
import StampedPrograms.Proofs.Stamp.Expression
import StampedPrograms.Proofs.Stamp.Program
import StampedPrograms.Proofs.Symbols
import StampedPrograms.Proofs.Text.Crossing
import StampedPrograms.Proofs.Text.Quoted
import StampedPrograms.Proofs.Text.Runs
import StampedPrograms.Proofs.Text.Utf16
import StampedPrograms.Proofs.Text.Utf8
import StampedPrograms.Proofs.Token.Lexer
import StampedPrograms.Proofs.Token.Offending
import StampedPrograms.Proofs.Token.Pieces
import StampedPrograms.Proofs.Token.Spacing
import StampedPrograms.Proofs.Token.Spelling
import StampedPrograms.Proofs.Value.Canonical
import StampedPrograms.Proofs.Value.Document
import StampedPrograms.Proofs.Value.Names
import StampedPrograms.Proofs.Value.Record
import StampedPrograms.Proofs.Value.UniqueText
import StampedPrograms.Proofs.Verify
import StampedPrograms.Proofs.Verify.Conformance
import StampedPrograms.Proofs.Verify.Golden
import StampedPrograms.Sha256
import StampedPrograms.Stamp.Basic
import StampedPrograms.Stamp.Difference
import StampedPrograms.Stamp.Expression
import StampedPrograms.Stamp.Program
import StampedPrograms.Symbols
import StampedPrograms.Text.Blank
import StampedPrograms.Text.Hex
import StampedPrograms.Text.Quoted
import StampedPrograms.Text.Size
import StampedPrograms.Text.Utf16
import StampedPrograms.Token.Basic
import StampedPrograms.Token.Lexer
import StampedPrograms.Value.Basic
import StampedPrograms.Value.Document
import StampedPrograms.Value.Encoding
import StampedPrograms.Verify.Basic
import StampedPrograms.Verify.Conformance
import StampedPrograms.Verify.Golden
