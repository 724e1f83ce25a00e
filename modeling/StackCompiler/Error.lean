import StackCompiler.Assembly.LoweringError
import StackCompiler.Exchange.Read
import StackCompiler.Program.SyntaxError
import StackCompiler.Token.Scan
import StackCompiler.Tree.Findings

/-!
# Errors of a compilation

Every stage stops at its first error, so a compilation has at most one.  Errors in a text know the
place they are about; errors in a tree do not.
-/

namespace StackCompiler

/-- Why a compilation failed, by stage. -/
inductive CompileError where
  | scan (error : ScanError)
  | parse (error : SyntaxError)
  | read (error : ReadError)
  | verify (findings : Findings)
  | lower (error : LoweringError)

namespace CompileError

/-- The error as messages show it. -/
def message : CompileError → String
  | scan error => "lexical error: " ++ error.message
  | parse error => "syntax error: " ++ error.message
  | read error => "malformed tree dump: " ++ error.message
  | verify findings => findings.message
  | lower error => "internal code generation error: " ++ error.message

/-- The place in the text that the error is about. -/
def span? : CompileError → Option Span
  | scan error => some error.span
  | parse error => some error.span
  | read error => some error.span
  | verify _ => none
  | lower _ => none

end CompileError

end StackCompiler
