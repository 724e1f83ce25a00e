import StackCompiler.Binary64.Decimal
import StackCompiler.Operator
import StackCompiler.Text.Span

/-!
# Tokens

A token is an operator, a mark, a number or a name, together with the bytes of the source that it
stands for.  A name is a variable until it is known to be a function.
-/

namespace StackCompiler

/-- What a token is, apart from its place in the source. -/
inductive TokenKind where
  | mark (mark : Mark)
  | binary (op : BinaryOp)
  | unary (op : UnaryOp)
  | control (op : ControlOp)
  | number (value : Binary64)
  | variable (name : String)
  | function (name : String)
deriving DecidableEq

/-- A token and the bytes of the source that it stands for. -/
structure Token where
  kind : TokenKind
  span : Span
deriving DecidableEq

/-- The end of the input as a token. -/
abbrev TokenKind.endOfInput : TokenKind := .mark .endOfInput

/-- The token as messages show it. -/
def TokenKind.text : TokenKind → String
  | .mark m => m.text
  | .binary op => "`" ++ op.keyword ++ "`"
  | .unary op => "`" ++ op.keyword ++ "`"
  | .control op => "`" ++ op.keyword ++ "`"
  | .number value => "number " ++ value.text
  | .variable name => "variable `" ++ name ++ "`"
  | .function name => "function `" ++ name ++ "`"

end StackCompiler
