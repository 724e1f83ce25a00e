import StackCompiler.Token.Basic

/-!
# Syntax errors

The parser gives up at the first token that does not fit and says what it was looking for.
-/

namespace StackCompiler

/-- What the parser was looking for when it gave up. -/
inductive Expected where
  | mark (mark : Mark)
  | variable
  | functionName
  | statement
  | expression
deriving DecidableEq, Repr

/-- Why the tokens of a source are no program, and where. -/
inductive SyntaxError where
  | unexpected (expected : Expected) (found : TokenKind) (span : Span)
  | redefinition (name : String) (span : Span)
  | chainedComparison (op : Comparison) (span : Span)
deriving DecidableEq

/-- What was looked for, as messages show it. -/
def Expected.text : Expected → String
  | .mark m => m.text
  | .variable => "a variable"
  | .functionName => "a function name"
  | .statement => "a statement"
  | .expression => "an expression"

namespace SyntaxError

/-- The bytes of the source that the error is about. -/
def span : SyntaxError → Span
  | unexpected _ _ span => span
  | redefinition _ span => span
  | chainedComparison _ span => span

/-- The error as messages show it. -/
def message : SyntaxError → String
  | unexpected expected found _ => "expected " ++ expected.text ++ ", found " ++ found.text
  | redefinition name _ => "function `" ++ name ++ "` is defined more than once"
  | chainedComparison op _ =>
    "comparisons cannot be chained, found a second `" ++ op.keyword ++ "`"

end SyntaxError

end StackCompiler
