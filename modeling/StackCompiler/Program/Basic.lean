import StackCompiler.Binary64.Basic
import StackCompiler.Operator

/-!
# Programs

A program is a nonempty list of function definitions.  A function has parameters and a body of
statements, and statements contain expressions.  Variables and functions are referred to by name.
-/

namespace StackCompiler

/-- What computes a value. -/
inductive Expr where
  | number (value : Binary64)
  | variable (name : String)
  | input (target : String)
  | call (function : String) (arguments : List Expr)
  | math (op : MathOp) (operand : Expr)
  | arithmetic (op : ArithmeticOp) (left right : Expr)
  | comparison (op : Comparison) (left right : Expr)

/-- What runs in order.  A branch without an alternative has an empty one. -/
inductive Statement where
  | assign (target : String) (value : Expr)
  | branch (condition : Expr) (consequence alternative : List Statement)
  | loop (condition : Expr) (body : List Statement)
  | call (function : String) (arguments : List Expr)
  | ret (value : Expr)
  | output (op : OutputOp) (value : Expr)
  | input (target : String)

/-- A function: its name, the names of its parameters, and its body. -/
structure Definition where
  name : String
  parameters : List String
  body : List Statement

/-- The definitions of a program in the order of the source, of which there is at least one. -/
structure Program where
  first : Definition
  others : List Definition

namespace Program

/-- All definitions in the order of the source. -/
def definitions (program : Program) : List Definition :=
  program.first :: program.others

/-- The position of the definition that runs first: the first one with the given name, or the
first of all if there is none. -/
def entryPosition (program : Program) (entry : String) : Nat :=
  (program.definitions.findIdx? (·.name == entry)).getD 0

end Program

end StackCompiler
