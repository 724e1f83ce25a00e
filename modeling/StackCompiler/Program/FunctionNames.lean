import StackCompiler.Program.SyntaxError
import StackCompiler.SymbolTable

/-!
# Function names

Before a program is parsed, every name that follows the mark of a definition is entered into the
table of functions, so that a call may stand before the definition.  A name may be defined once
only.  Afterwards every name of the table counts as a function wherever it occurs.
-/

namespace StackCompiler.FunctionNames

/-- The names that directly follow the mark of a definition, with their places. -/
def declared : List Token → List (String × Span)
  | ⟨.mark .define, _⟩ :: ⟨.variable name, span⟩ :: rest => (name, span) :: declared rest
  | _ :: rest => declared rest
  | [] => []

/-- The names that are entered into the table with their new positions, up to the first name that
is there already. -/
def entered (funcs : SymbolTable) : List (String × Span) → List (String × Nat)
  | [] => []
  | (name, _) :: rest =>
    if (funcs.lookup? name).isSome then []
    else
      let (index, funcs) := funcs.intern name
      (name, index) :: entered funcs rest

/-- The table with the names entered up to the first one that is there already. -/
def enteredTable (funcs : SymbolTable) (names : List (String × Span)) : SymbolTable :=
  (entered funcs names).foldl (fun funcs (name, _) => (funcs.intern name).2) funcs

/-- The table with all names entered, or an error for the first name that is there already. -/
def enter (funcs : SymbolTable) : List (String × Span) → Except SyntaxError SymbolTable
  | [] => .ok funcs
  | (name, span) :: rest =>
    if (funcs.lookup? name).isSome then .error (.redefinition name span)
    else enter (funcs.intern name).2 rest

/-- A token, as a function if its name is in the table. -/
def retag (funcs : SymbolTable) (token : Token) : Token :=
  match token.kind with
  | .variable name =>
    if (funcs.lookup? name).isSome then { token with kind := .function name } else token
  | _ => token

/-- The tokens with every function name marked as such, and the table of functions. -/
def register (tokens : List Token) (funcs : SymbolTable) :
    Except SyntaxError (List Token × SymbolTable) := do
  let funcs ← enter funcs (declared tokens)
  return (tokens.map (retag funcs), funcs)

end StackCompiler.FunctionNames
