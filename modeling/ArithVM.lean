import ArithVM.Chunk
import ArithVM.Chunk.Compile
import ArithVM.Chunk.Decode
import ArithVM.CommandLine
import ArithVM.CompileError
import ArithVM.Decimal.Numeral
import ArithVM.Decimal.Rounding
import ArithVM.ErrorCode
import ArithVM.Expr
import ArithVM.Expr.Grammar
import ArithVM.Fault
import ArithVM.Instruction
import ArithVM.Json
import ArithVM.LineTable
import ArithVM.Listing
import ArithVM.Machine
import ArithVM.Main
import ArithVM.Pool
import ArithVM.Precedence
import ArithVM.Program
import ArithVM.Proofs.Chunk.Assembly
import ArithVM.Proofs.Chunk.History
import ArithVM.Proofs.Compile.Acceptance
import ArithVM.Proofs.Compile.Decompilation
import ArithVM.Proofs.Compile.FirstError
import ArithVM.Proofs.Compile.Numeral
import ArithVM.Proofs.Compile.Place
import ArithVM.Proofs.Compile.Postorder
import ArithVM.Proofs.Compile.Simulation
import ArithVM.Proofs.Compile.Verdict
import ArithVM.Proofs.Decimal.Nearest
import ArithVM.Proofs.Decimal.Numeral
import ArithVM.Proofs.Decimal.Rendering
import ArithVM.Proofs.Decimal.Rounding
import ArithVM.Proofs.Grammar.Nesting
import ArithVM.Proofs.Grammar.Reading
import ArithVM.Proofs.Grammar.Repetition
import ArithVM.Proofs.Grammar.Viability
import ArithVM.Proofs.LineTable.Inverse
import ArithVM.Proofs.LineTable.Position
import ArithVM.Proofs.LineTable.Segments
import ArithVM.Proofs.Listing.Bars
import ArithVM.Proofs.Listing.Reading
import ArithVM.Proofs.Listing.Rows
import ArithVM.Proofs.Machine.Evaluation
import ArithVM.Proofs.Machine.Extension
import ArithVM.Proofs.Machine.Faults
import ArithVM.Proofs.Machine.History
import ArithVM.Proofs.Machine.Lockstep
import ArithVM.Proofs.Machine.Safety
import ArithVM.Proofs.Machine.Steps
import ArithVM.Proofs.Machine.Trace
import ArithVM.Proofs.Machine.Walk
import ArithVM.Proofs.Program.Dialogue
import ArithVM.Proofs.Program.Files
import ArithVM.Proofs.Program.Flags
import ArithVM.Proofs.Report.Agreement
import ArithVM.Proofs.Session.History
import ArithVM.Proofs.Text.Trailing
import ArithVM.Proofs.Token.Layout
import ArithVM.Proofs.Token.Lines
import ArithVM.Proofs.Token.Munch
import ArithVM.Proofs.Token.Pattern
import ArithVM.Proofs.Token.Sequence
import ArithVM.Proofs.Value.Exact
import ArithVM.Proofs.Value.Printing
import ArithVM.Proofs.Value.Reading
import ArithVM.Report
import ArithVM.Report.Data
import ArithVM.Report.Terminal
import ArithVM.Session
import ArithVM.Text.Blank
import ArithVM.Text.Padding
import ArithVM.Text.Slice
import ArithVM.Text.Utf8
import ArithVM.Token
import ArithVM.Token.Lossless
import ArithVM.Token.Scan
import ArithVM.Token.Scanner
import ArithVM.Value
import ArithVM.Value.Literal
import ArithVM.Value.Text
import ArithVM.Proofs.Report.Lines
import ArithVM.Proofs.Text.Offsets
import ArithVM.Proofs.Report.Carets
import ArithVM.Proofs.Report.Layout
import ArithVM.Proofs.Report.Colour
import ArithVM.Proofs.Token.Requests
import ArithVM.Proofs.Token.Departure
import ArithVM.Proofs.Token.Seam
import ArithVM.Proofs.Token.Spacing
import ArithVM.Proofs.Compile.Spacing
import ArithVM.Proofs.Json.Reading
import ArithVM.Proofs.Report.Decoding
