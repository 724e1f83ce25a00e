/-!
# Operators and marks

The operators of the language and the marks that hold a program together.  All of them share one
numbering: unary operators come first, then binary operators, control operators and marks.  The
number of an operator is what a written tree holds for it.
-/

namespace StackCompiler

/-- Operators that turn one value into another. -/
inductive MathOp where
  | sin
  | cos
  | sqrt
  | ln
  | not
deriving DecidableEq, Repr

/-- Operators that print a value. -/
inductive OutputOp where
  | out
  | outS
deriving DecidableEq, Repr

/-- Operators with one operand. -/
inductive UnaryOp where
  | math (op : MathOp)
  | output (op : OutputOp)
  | input
  | ret
deriving DecidableEq, Repr

/-- Operators that compute a value from two. -/
inductive ArithmeticOp where
  | add
  | sub
  | mul
  | div
  | pow
deriving DecidableEq, Repr

/-- Operators that compare two values. -/
inductive Comparison where
  | eq
  | gt
  | lt
  | ge
  | le
  | ne
deriving DecidableEq, Repr

/-- Operators with two operands. -/
inductive BinaryOp where
  | arithmetic (op : ArithmeticOp)
  | comparison (op : Comparison)
  | assign
deriving DecidableEq, Repr

/-- Operators that choose which statements run. -/
inductive ControlOp where
  | branch
  | loop
deriving DecidableEq, Repr

/-- The marks of the language, and the end of the input. -/
inductive Mark where
  | separator
  | endOfInput
  | openParen
  | closeParen
  | openBrace
  | closeBrace
  | assignEnd
  | define
  | argumentsBegin
  | argumentsEnd
  | comma
deriving DecidableEq, Repr

namespace MathOp

/-- The number of the operator. -/
def code : MathOp → Nat
  | sin => 0
  | cos => 1
  | sqrt => 2
  | ln => 3
  | not => 4

/-- The operator as a program spells it. -/
def keyword : MathOp → String
  | sin => "SIN"
  | cos => "COS"
  | sqrt => "SQRT"
  | ln => "LN"
  | not => "!"

/-- The instruction that computes the operator. -/
def mnemonic : MathOp → String
  | sin => "SIN"
  | cos => "COS"
  | sqrt => "SQRT"
  | ln => "LN"
  | not => "NOT"

end MathOp

namespace OutputOp

/-- The number of the operator. -/
def code : OutputOp → Nat
  | out => 5
  | outS => 6

/-- The operator as a program and its assembly spell it. -/
def keyword : OutputOp → String
  | out => "OUT"
  | outS => "OUT_S"

end OutputOp

namespace UnaryOp

/-- All unary operators, by number. -/
def all : List UnaryOp :=
  [.math .sin, .math .cos, .math .sqrt, .math .ln, .math .not, .output .out, .output .outS,
   .input, .ret]

/-- The number of the operator. -/
def code : UnaryOp → Nat
  | math op => op.code
  | output op => op.code
  | input => 7
  | ret => 8

/-- The unary operator with the given number. -/
def ofCode? (code : Int) : Option UnaryOp :=
  all.find? fun op => (op.code : Int) == code

/-- The operator as a program spells it. -/
def keyword : UnaryOp → String
  | math op => op.keyword
  | output op => op.keyword
  | input => "IN"
  | ret => "Return of the King"

/-- The instruction named for the operator. -/
def mnemonic : UnaryOp → String
  | math op => op.mnemonic
  | output op => op.keyword
  | input => "IN"
  | ret => "ret"

/-- Whether the operator makes a statement and can be no part of an expression. -/
def isStatementOnly : UnaryOp → Bool
  | output _ => true
  | ret => true
  | _ => false

end UnaryOp

namespace ArithmeticOp

/-- The number of the operator. -/
def code : ArithmeticOp → Nat
  | add => 9
  | sub => 10
  | mul => 11
  | div => 12
  | pow => 13

/-- The operator as a word, which is also the instruction that computes it. -/
def keyword : ArithmeticOp → String
  | add => "ADD"
  | sub => "SUB"
  | mul => "MUL"
  | div => "DIV"
  | pow => "POW"

/-- Whether the operator joins terms. -/
def isAdditive : ArithmeticOp → Bool
  | add => true
  | sub => true
  | _ => false

/-- Whether the operator joins factors. -/
def isMultiplicative (op : ArithmeticOp) : Bool := !op.isAdditive

end ArithmeticOp

namespace Comparison

/-- The number of the operator. -/
def code : Comparison → Nat
  | eq => 14
  | gt => 15
  | lt => 16
  | ge => 17
  | le => 18
  | ne => 19

/-- The operator as a program spells it. -/
def keyword : Comparison → String
  | eq => "=="
  | gt => ">"
  | lt => "<"
  | ge => ">="
  | le => "<="
  | ne => "!="

/-- The instruction that computes the operator. -/
def mnemonic : Comparison → String
  | eq => "IS_EQUAL"
  | gt => "GREATER"
  | lt => "LESS"
  | ge => "GOE"
  | le => "LOE"
  | ne => "NOT_EQUAL"

end Comparison

namespace BinaryOp

/-- All binary operators, by number. -/
def all : List BinaryOp :=
  [.arithmetic .add, .arithmetic .sub, .arithmetic .mul, .arithmetic .div, .arithmetic .pow,
   .comparison .eq, .comparison .gt, .comparison .lt, .comparison .ge, .comparison .le,
   .comparison .ne, .assign]

/-- The number of the operator. -/
def code : BinaryOp → Nat
  | arithmetic op => op.code
  | comparison op => op.code
  | assign => 20

/-- The binary operator with the given number. -/
def ofCode? (code : Int) : Option BinaryOp :=
  all.find? fun op => (op.code : Int) == code

/-- The operator as a program spells it. -/
def keyword : BinaryOp → String
  | arithmetic op => op.keyword
  | comparison op => op.keyword
  | assign => "Give him"

/-- The instruction named for the operator. -/
def mnemonic : BinaryOp → String
  | arithmetic op => op.keyword
  | comparison op => op.mnemonic
  | assign => "ASSUME"

end BinaryOp

namespace ControlOp

/-- All control operators, by number. -/
def all : List ControlOp := [.branch, .loop]

/-- The number of the operator. -/
def code : ControlOp → Nat
  | branch => 21
  | loop => 22

/-- The control operator with the given number. -/
def ofCode? (code : Int) : Option ControlOp :=
  all.find? fun op => (op.code : Int) == code

/-- The operator as a program spells it. -/
def keyword : ControlOp → String
  | branch => "One does not simply walk into Mordor"
  | loop => "So it begins"

end ControlOp

namespace Mark

/-- All marks, by number. -/
def all : List Mark :=
  [separator, endOfInput, openParen, closeParen, openBrace, closeBrace, assignEnd, define,
   argumentsBegin, argumentsEnd, comma]

/-- The number of the mark. -/
def code : Mark → Nat
  | separator => 23
  | endOfInput => 24
  | openParen => 25
  | closeParen => 26
  | openBrace => 27
  | closeBrace => 28
  | assignEnd => 29
  | define => 30
  | argumentsBegin => 31
  | argumentsEnd => 32
  | comma => 33

/-- The mark with the given number. -/
def ofCode? (code : Int) : Option Mark :=
  all.find? fun mark => (mark.code : Int) == code

/-- The mark as a program spells it; the end of the input has no spelling, only a description. -/
def keyword : Mark → String
  | separator => "Precious"
  | endOfInput => "end of input"
  | openParen => "Unexpected"
  | closeParen => "Journey"
  | openBrace => "Black"
  | closeBrace => "Gates"
  | assignEnd => "A pony"
  | define => "Mellon"
  | argumentsBegin => "Fellowship"
  | argumentsEnd => "of the Ring"
  | comma => "Gollum"

/-- The mark as messages show it. -/
def text : Mark → String
  | endOfInput => endOfInput.keyword
  | mark => "`" ++ mark.keyword ++ "`"

end Mark

end StackCompiler
