import StackCompiler.Program.Basic
import StackCompiler.Program.SyntaxError
import StackCompiler.SymbolTable

/-!
# Parsing

A recursive-descent parser for the grammar

    Program    := Function+
    Function   := Mellon FuncName Parameters? Body
    Parameters := Fellowship (Variable (Gollum Variable)*)? of the Ring
    Body       := Black Statement* Gates
    Statement  := (Assign | If | While | Call | Return | Output | Input) Precious
    Assign     := Give him Variable A pony Comparison
    If         := One does not simply walk into Mordor Primary Body Body?
    While      := So it begins Primary Body
    Call       := FuncName Arguments?
    Arguments  := Fellowship (Expression (Gollum Expression)*)? of the Ring
    Return     := Return of the King Comparison
    Output     := (OUT | OUT_S) Expression
    Input      := IN Variable
    Comparison := Expression (CompareOp Expression)?
    Expression := Term ((ADD | SUB) Term)*
    Term       := Primary ((MUL | DIV | POW) Primary)*
    Primary    := Unexpected Comparison Journey | MathOp Expression | Input | Value
    Value      := Number | Variable | Call

The parser works on the kinds of the tokens and returns what it made of them with the tokens that
are left; the empty list is the end of the input.  It looks one token ahead, never goes back, and
ends at the first token that does not fit.  A function name is a name of the given table.

Every step takes one unit of fuel.  Between two tokens that are read there are fewer than ten
steps, so the fuel given by `Program.ofTokens` outlasts the tokens.
-/

namespace StackCompiler

namespace Parse

/-- Why a token does not fit. -/
inductive Complaint where
  | expected (expected : Expected)
  | chainedComparison (op : Comparison)
deriving DecidableEq, Repr

/-- A complaint together with the tokens that were left when it arose, the first of which does not
fit. -/
structure Mismatch where
  complaint : Complaint
  rest : List TokenKind
deriving DecidableEq

/-- The mismatch that arises where something else was looked for. -/
def missing {α : Type} (expected : Expected) (tokens : List TokenKind) : Except Mismatch α :=
  .error { complaint := .expected expected, rest := tokens }

/-- Reads one mark. -/
def expect (mark : Mark) : List TokenKind → Except Mismatch (Unit × List TokenKind)
  | .mark found :: rest =>
    if found = mark then .ok ((), rest) else missing (.mark mark) (.mark found :: rest)
  | tokens => missing (.mark mark) tokens

/-- Reads the name of a variable. -/
def variableName : List TokenKind → Except Mismatch (String × List TokenKind)
  | .variable name :: rest => .ok (name, rest)
  | tokens => missing .variable tokens

/-- Reads the name of a function of the table. -/
def functionName (funcs : SymbolTable) : List TokenKind → Except Mismatch (String × List TokenKind)
  | .function name :: rest =>
    if (funcs.lookup? name).isSome then .ok (name, rest)
    else missing .functionName (.function name :: rest)
  | tokens => missing .functionName tokens

/-- Reads `(Gollum Variable)* of the Ring`. -/
def moreParameters : List TokenKind → Except Mismatch (List String × List TokenKind)
  | .mark .comma :: .variable name :: rest => do
    let (names, rest) ← moreParameters rest
    return (name :: names, rest)
  | .mark .comma :: tokens => missing .variable tokens
  | tokens => do
    let ((), rest) ← expect .argumentsEnd tokens
    return ([], rest)

/-- Reads the parameters of a function, if it has any. -/
def parameters : List TokenKind → Except Mismatch (List String × List TokenKind)
  | .mark .argumentsBegin :: .mark .argumentsEnd :: rest => .ok ([], rest)
  | .mark .argumentsBegin :: tokens => do
    let (name, rest) ← variableName tokens
    let (names, rest) ← moreParameters rest
    return (name :: names, rest)
  | tokens => .ok ([], tokens)

/-! ### Expressions -/

mutual

/-- Reads `Comparison`. -/
def comparison (funcs : SymbolTable) :
    (fuel : Nat) → List TokenKind → Except Mismatch (Expr × List TokenKind)
  | 0, tokens => missing .expression tokens
  | fuel + 1, tokens => do
    let (left, rest) ← expression funcs fuel tokens
    match rest with
    | .binary (.comparison op) :: rest =>
      let (right, rest) ← expression funcs fuel rest
      match rest with
      | .binary (.comparison second) :: _ =>
        .error { complaint := .chainedComparison second, rest }
      | _ => return (.comparison op left right, rest)
    | _ => return (left, rest)

/-- Reads `Expression`. -/
def expression (funcs : SymbolTable) :
    (fuel : Nat) → List TokenKind → Except Mismatch (Expr × List TokenKind)
  | 0, tokens => missing .expression tokens
  | fuel + 1, tokens => do
    let (left, rest) ← term funcs fuel tokens
    moreTerms funcs fuel left rest

/-- Reads `((ADD | SUB) Term)*` after the terms that make up `left`. -/
def moreTerms (funcs : SymbolTable) :
    (fuel : Nat) → (left : Expr) → List TokenKind → Except Mismatch (Expr × List TokenKind)
  | 0, _, tokens => missing .expression tokens
  | fuel + 1, left, tokens =>
    match tokens with
    | .binary (.arithmetic op) :: rest =>
      if op.isAdditive then do
        let (right, rest) ← term funcs fuel rest
        moreTerms funcs fuel (.arithmetic op left right) rest
      else .ok (left, tokens)
    | _ => .ok (left, tokens)

/-- Reads `Term`. -/
def term (funcs : SymbolTable) :
    (fuel : Nat) → List TokenKind → Except Mismatch (Expr × List TokenKind)
  | 0, tokens => missing .expression tokens
  | fuel + 1, tokens => do
    let (left, rest) ← primary funcs fuel tokens
    moreFactors funcs fuel left rest

/-- Reads `((MUL | DIV | POW) Primary)*` after the factors that make up `left`. -/
def moreFactors (funcs : SymbolTable) :
    (fuel : Nat) → (left : Expr) → List TokenKind → Except Mismatch (Expr × List TokenKind)
  | 0, _, tokens => missing .expression tokens
  | fuel + 1, left, tokens =>
    match tokens with
    | .binary (.arithmetic op) :: rest =>
      if op.isMultiplicative then do
        let (right, rest) ← primary funcs fuel rest
        moreFactors funcs fuel (.arithmetic op left right) rest
      else .ok (left, tokens)
    | _ => .ok (left, tokens)

/-- Reads `Primary`. -/
def primary (funcs : SymbolTable) :
    (fuel : Nat) → List TokenKind → Except Mismatch (Expr × List TokenKind)
  | 0, tokens => missing .expression tokens
  | fuel + 1, tokens =>
    match tokens with
    | .mark .openParen :: rest => do
      let (inner, rest) ← comparison funcs fuel rest
      let ((), rest) ← expect .closeParen rest
      return (inner, rest)
    | .unary (.math op) :: rest => do
      let (operand, rest) ← expression funcs fuel rest
      return (.math op operand, rest)
    | .unary .input :: rest => do
      let (target, rest) ← variableName rest
      return (.input target, rest)
    | .number value :: rest => .ok (.number value, rest)
    | .variable name :: rest => .ok (.variable name, rest)
    | .function _ :: _ => do
      let (function, rest) ← functionName funcs tokens
      let (arguments, rest) ← arguments funcs fuel rest
      return (.call function arguments, rest)
    | _ => missing .expression tokens

/-- Reads the arguments of a call, if it has any. -/
def arguments (funcs : SymbolTable) :
    (fuel : Nat) → List TokenKind → Except Mismatch (List Expr × List TokenKind)
  | 0, tokens => missing .expression tokens
  | fuel + 1, tokens =>
    match tokens with
    | .mark .argumentsBegin :: .mark .argumentsEnd :: rest => .ok ([], rest)
    | .mark .argumentsBegin :: rest => do
      let (argument, rest) ← expression funcs fuel rest
      let (arguments, rest) ← moreArguments funcs fuel rest
      return (argument :: arguments, rest)
    | _ => .ok ([], tokens)

/-- Reads `(Gollum Expression)* of the Ring`. -/
def moreArguments (funcs : SymbolTable) :
    (fuel : Nat) → List TokenKind → Except Mismatch (List Expr × List TokenKind)
  | 0, tokens => missing .expression tokens
  | fuel + 1, tokens =>
    match tokens with
    | .mark .comma :: rest => do
      let (argument, rest) ← expression funcs fuel rest
      let (arguments, rest) ← moreArguments funcs fuel rest
      return (argument :: arguments, rest)
    | _ => do
      let ((), rest) ← expect .argumentsEnd tokens
      return ([], rest)

end

/-! ### Statements -/

mutual

/-- Reads `Body`. -/
def body (funcs : SymbolTable) :
    (fuel : Nat) → List TokenKind → Except Mismatch (List Statement × List TokenKind)
  | 0, tokens => missing (.mark .openBrace) tokens
  | fuel + 1, tokens => do
    let ((), rest) ← expect .openBrace tokens
    statements funcs fuel rest

/-- Reads `Statement* Gates`. -/
def statements (funcs : SymbolTable) :
    (fuel : Nat) → List TokenKind → Except Mismatch (List Statement × List TokenKind)
  | 0, tokens => missing .statement tokens
  | fuel + 1, tokens =>
    match tokens with
    | .mark .closeBrace :: rest => .ok ([], rest)
    | _ => do
      let (statement, rest) ← statement funcs fuel tokens
      let ((), rest) ← expect .separator rest
      let (statements, rest) ← statements funcs fuel rest
      return (statement :: statements, rest)

/-- Reads `Statement` without the mark that ends it. -/
def statement (funcs : SymbolTable) :
    (fuel : Nat) → List TokenKind → Except Mismatch (Statement × List TokenKind)
  | 0, tokens => missing .statement tokens
  | fuel + 1, tokens =>
    match tokens with
    | .binary .assign :: rest => do
      let (target, rest) ← variableName rest
      let ((), rest) ← expect .assignEnd rest
      let (value, rest) ← comparison funcs fuel rest
      return (.assign target value, rest)
    | .control .branch :: rest => do
      let (condition, rest) ← primary funcs fuel rest
      let (consequence, rest) ← body funcs fuel rest
      let (alternative, rest) ← alternative funcs fuel rest
      return (.branch condition consequence alternative, rest)
    | .control .loop :: rest => do
      let (condition, rest) ← primary funcs fuel rest
      let (repeated, rest) ← body funcs fuel rest
      return (.loop condition repeated, rest)
    | .function _ :: _ => do
      let (function, rest) ← functionName funcs tokens
      let (arguments, rest) ← arguments funcs fuel rest
      return (.call function arguments, rest)
    | .unary .ret :: rest => do
      let (value, rest) ← comparison funcs fuel rest
      return (.ret value, rest)
    | .unary (.output op) :: rest => do
      let (value, rest) ← expression funcs fuel rest
      return (.output op value, rest)
    | .unary .input :: rest => do
      let (target, rest) ← variableName rest
      return (.input target, rest)
    | _ => missing .statement tokens

/-- Reads the second body of a branch, if it has one. -/
def alternative (funcs : SymbolTable) :
    (fuel : Nat) → List TokenKind → Except Mismatch (List Statement × List TokenKind)
  | 0, tokens => missing (.mark .openBrace) tokens
  | fuel + 1, tokens =>
    match tokens with
    | .mark .openBrace :: _ => body funcs fuel tokens
    | _ => .ok ([], tokens)

end

/-! ### Functions -/

/-- Reads `Function`. -/
def definition (funcs : SymbolTable) (fuel : Nat) (tokens : List TokenKind) :
    Except Mismatch (Definition × List TokenKind) := do
  let ((), rest) ← expect .define tokens
  let (name, rest) ← functionName funcs rest
  let (parameters, rest) ← parameters rest
  let (body, rest) ← body funcs fuel rest
  return ({ name, parameters, body }, rest)

/-- Reads `Function*` up to the end of the input. -/
def definitions (funcs : SymbolTable) :
    (fuel : Nat) → List TokenKind → Except Mismatch (List Definition × List TokenKind)
  | 0, tokens => missing (.mark .define) tokens
  | fuel + 1, tokens =>
    match tokens with
    | [] => .ok ([], [])
    | _ => do
      let (first, rest) ← definition funcs fuel tokens
      let (others, rest) ← definitions funcs fuel rest
      return (first :: others, rest)

/-- The fuel that outlasts the given tokens. -/
def fuel (tokens : List TokenKind) : Nat := 10 * (tokens.length + 1)

/-- Reads a whole program. -/
def program (funcs : SymbolTable) (tokens : List TokenKind) : Except Mismatch Program := do
  let (first, rest) ← definition funcs (fuel tokens) tokens
  let (others, _) ← definitions funcs (fuel tokens) rest
  return { first, others }

end Parse

/-- The end of the input as a token after the given ones. -/
def Token.endAfter (tokens : List Token) : Token :=
  let stop := (tokens.getLast?.map (·.span.stop)).getD 0
  { kind := .endOfInput, span := ⟨stop, stop⟩ }

/-- The error that a mismatch means for the given tokens. -/
def Parse.Mismatch.toError (tokens : List Token) (mismatch : Parse.Mismatch) : SyntaxError :=
  let read := tokens.takeWhile (·.kind != .endOfInput)
  let found := (tokens[read.length - mismatch.rest.length]?).getD (Token.endAfter tokens)
  match mismatch.complaint with
  | .expected expected => .unexpected expected found.kind found.span
  | .chainedComparison op => .chainedComparison op found.span

/-- The program that tokens make up, with the functions of the given table.  The input ends at the
first token that says so, or after the last token. -/
def Program.ofTokens (funcs : SymbolTable) (tokens : List Token) : Except SyntaxError Program :=
  let read := tokens.takeWhile (·.kind != .endOfInput)
  match Parse.program funcs (read.map (·.kind)) with
  | .ok program => .ok program
  | .error mismatch => .error (mismatch.toError tokens)

end StackCompiler
