import StackCompiler.Assembly.Basic
import StackCompiler.Assembly.Generate
import StackCompiler.Assembly.LoweringError
import StackCompiler.Binary64.Basic
import StackCompiler.Binary64.Decimal
import StackCompiler.Command.Arguments
import StackCompiler.Command.Directory
import StackCompiler.Command.Files
import StackCompiler.Command.Report
import StackCompiler.Command.Run
import StackCompiler.Command.Verbosity
import StackCompiler.Compile
import StackCompiler.Error
import StackCompiler.Event
import StackCompiler.Exchange.Read
import StackCompiler.Exchange.Symbol
import StackCompiler.Exchange.Write
import StackCompiler.Main
import StackCompiler.Operator
import StackCompiler.Program.Basic
import StackCompiler.Program.FunctionNames
import StackCompiler.Program.Layout
import StackCompiler.Program.Parse
import StackCompiler.Program.SyntaxError
import StackCompiler.Proofs.Assembly.Arguments
import StackCompiler.Proofs.Assembly.CallNodes
import StackCompiler.Proofs.Assembly.Calls
import StackCompiler.Proofs.Assembly.Closed
import StackCompiler.Proofs.Assembly.Emission
import StackCompiler.Proofs.Assembly.Entry
import StackCompiler.Proofs.Assembly.Forms
import StackCompiler.Proofs.Assembly.Heights
import StackCompiler.Proofs.Assembly.Labels
import StackCompiler.Proofs.Assembly.Lower
import StackCompiler.Proofs.Assembly.Nesting
import StackCompiler.Proofs.Assembly.Placement
import StackCompiler.Proofs.Assembly.Places
import StackCompiler.Proofs.Assembly.Reading
import StackCompiler.Proofs.Assembly.Relocation
import StackCompiler.Proofs.Assembly.Shape
import StackCompiler.Proofs.Assembly.Symbols
import StackCompiler.Proofs.Binary64.Numeral
import StackCompiler.Proofs.Binary64.Rounding
import StackCompiler.Proofs.Command.AllOrNothing
import StackCompiler.Proofs.Compile.ErrorSpans
import StackCompiler.Proofs.Compile.FrontEnds
import StackCompiler.Proofs.Compile.Outcomes
import StackCompiler.Proofs.Compile.Renaming
import StackCompiler.Proofs.Compile.Reread
import StackCompiler.Proofs.Compile.Sources
import StackCompiler.Proofs.Exchange.Canonical
import StackCompiler.Proofs.Exchange.Descent
import StackCompiler.Proofs.Exchange.Idempotence
import StackCompiler.Proofs.Exchange.RoundTrip
import StackCompiler.Proofs.Exchange.Scanning
import StackCompiler.Proofs.Exchange.Worklist
import StackCompiler.Proofs.Execution.Correctness
import StackCompiler.Proofs.Execution.Functions
import StackCompiler.Proofs.Execution.Interpreter
import StackCompiler.Proofs.Execution.Machine
import StackCompiler.Proofs.Execution.Protection
import StackCompiler.Proofs.Execution.Simulation
import StackCompiler.Proofs.Program.Acceptance
import StackCompiler.Proofs.Program.Code
import StackCompiler.Proofs.Program.Derivation
import StackCompiler.Proofs.Program.Findings
import StackCompiler.Proofs.Program.Following
import StackCompiler.Proofs.Program.FunctionNames
import StackCompiler.Proofs.Program.Grammar
import StackCompiler.Proofs.Program.Inverse
import StackCompiler.Proofs.Program.Language
import StackCompiler.Proofs.Program.Layout
import StackCompiler.Proofs.Program.Misfit
import StackCompiler.Proofs.Program.Parsed
import StackCompiler.Proofs.Program.Precedence
import StackCompiler.Proofs.Program.Prediction
import StackCompiler.Proofs.Program.Registration
import StackCompiler.Proofs.Program.Tables
import StackCompiler.Proofs.Program.Tokens
import StackCompiler.Proofs.Program.Written
import StackCompiler.Proofs.SymbolTable
import StackCompiler.Proofs.SymbolTable.Histories
import StackCompiler.Proofs.Token.Folding
import StackCompiler.Proofs.Token.Keywords
import StackCompiler.Proofs.Token.Layout
import StackCompiler.Proofs.Token.Lexemes
import StackCompiler.Proofs.Token.Spelling
import StackCompiler.Proofs.Token.Tiling
import StackCompiler.Proofs.Token.Unambiguous
import StackCompiler.Proofs.Tree.Chains
import StackCompiler.Proofs.Tree.Flags
import StackCompiler.Proofs.Tree.Graph
import StackCompiler.Proofs.Tree.Links
import StackCompiler.Proofs.Tree.Order
import StackCompiler.Proofs.Tree.Unfolds
import StackCompiler.Proofs.Tree.Verification
import StackCompiler.Proofs.Tree.Verified
import StackCompiler.Run
import StackCompiler.SymbolTable
import StackCompiler.Text.Extending
import StackCompiler.Text.Lines
import StackCompiler.Text.Quoted
import StackCompiler.Text.Span
import StackCompiler.Text.Unprinted
import StackCompiler.Token.Basic
import StackCompiler.Token.Keyword
import StackCompiler.Token.Scan
import StackCompiler.Tree.Basic
import StackCompiler.Tree.Findings
import StackCompiler.Tree.Graph
import StackCompiler.Tree.Reach
import StackCompiler.Tree.Unfolding
import StackCompiler.Tree.Verify
