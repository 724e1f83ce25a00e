import StackCompiler.Assembly.Generate
import StackCompiler.Exchange.Write
import StackCompiler.Program.FunctionNames
import StackCompiler.Program.Layout
import StackCompiler.Program.Parse
import StackCompiler.Tree.Verify

/-!
# Compilation

A source is scanned, its functions are registered, the program is parsed and laid out as a tree, the
tree is verified, and its code is generated.  A compilation can also begin with a tree that is read
from its exchange format.  Each stage reports events, which are kept when a later stage fails.
-/

namespace StackCompiler

/-- The tokens of a source. -/
def scanSource (source : String) : Run (List Token) :=
  match Token.scan source with
  | .error error => .fail (.scan error)
  | .ok tokens => do
    .report [.scanned tokens.length (Text.byteLength (Token.sourceText source))]
    return tokens

/-- The tokens with every function name marked as such, and the given table with all names of
functions entered. -/
def registerFunctions (tokens : List Token) (funcs : SymbolTable) :
    Run (List Token × SymbolTable) := do
  let entered := FunctionNames.entered funcs (FunctionNames.declared tokens)
  .report (entered.map fun (name, index) => .functionRegistered name index)
  match FunctionNames.register tokens funcs with
  | .error error => .fail (.parse error)
  | .ok registered => return registered

/-- The tree of the program that tokens make up, with the symbol tables of the given tree. -/
def parseTokens (tokens : List Token) (entry : String) (start : Tree) : Run Tree :=
  match Program.ofTokens start.funcs tokens with
  | .error error => .fail (.parse error)
  | .ok program => do
    let first := program.entryDefinition entry
    if !first.parameters.isEmpty then .report [.entryParametersUnbound first.name]
    let t := program.layout entry start
    .report [.parsed t.live t.vars.size t.funcs.size]
    return t

/-- The tree of a source; the function named `entry` runs first. -/
def parse (source entry : String) : Run Tree := do
  let tokens ← scanSource source
  let (tokens, funcs) ← registerFunctions tokens {}
  .report [.functionsRegistered funcs.size]
  parseTokens tokens entry { funcs }

/-- The tree that a text in the exchange format describes. -/
def readTree (text : String) : Run Tree :=
  match Tree.read text with
  | .error error => .fail (.read error)
  | .ok t => do
    .report [.treeRead t.live t.vars.size t.funcs.size]
    return t

/-- Fails if anything is wrong with a tree. -/
def verifyTree (t : Tree) : Run Unit := do
  let findings := t.verify
  if t.root.isSome then .report [.verified t.reached.length t.live findings]
  if findings.isEmpty then return () else .fail (.verify findings)

/-- The given listing with the code of a source added; the tree of the source is not verified. -/
def generateSource (source entry : String) (listing : Listing) : Run Listing := do
  let t ← parse source entry
  generate t listing

/-- A tree and its code. -/
structure Compilation where
  tree : Tree
  assembly : String

/-- Verifies a tree and generates its code. -/
def compileTree (t : Tree) : Run Compilation := do
  verifyTree t
  let listing ← generate t {}
  return { tree := t, assembly := listing.text }

/-- Compiles a source; the function named `entry` runs first. -/
def compile (source entry : String) : Run Compilation := do
  let t ← parse source entry
  compileTree t

/-- Compiles a text in the exchange format. -/
def compileDump (text : String) : Run Compilation := do
  let t ← readTree text
  compileTree t

end StackCompiler
