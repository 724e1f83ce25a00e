import StackCompiler.Program.Basic
import StackCompiler.Tree.Basic

/-!
# The tree of a program

A program is laid out as a tree from the leaves up: the operands of a node come before the node,
the items of a chain come before its separators, and the parameters of a function come before its
body.  Variables enter their table in the order in which the program mentions them.  The
definitions are linked last, the one that runs first in front of the others.
-/

namespace StackCompiler

namespace Layout

/-- Adds a node. -/
def addNode (kind : NodeKind) (left right : Option NodeId) : StateM Tree NodeId :=
  modifyGet fun t => t.node kind left right

/-- Adds a chain. -/
def addChain (items : List NodeId) : StateM Tree (Option NodeId) :=
  modifyGet fun t => t.chain items

/-- Adds a leaf for a variable, which enters the table of variables if it is new. -/
def addVariable (name : String) : StateM Tree NodeId :=
  modifyGet fun t =>
    let (index, vars) := t.vars.intern name
    { t with vars }.leaf (.variable index)

/-- The position of a function in the table of functions. -/
def functionIndex (name : String) : StateM Tree Nat :=
  modifyGet fun t =>
    let (index, funcs) := t.funcs.intern name
    (index, { t with funcs })

/-- Adds one leaf for each variable. -/
def addVariables : List String → StateM Tree (List NodeId)
  | [] => return []
  | name :: names => do
    let id ← addVariable name
    let ids ← addVariables names
    return id :: ids

mutual

/-- Adds the nodes of an expression and returns the topmost one. -/
def addExpr : Expr → StateM Tree NodeId
  | .number value => addNode (.number value) none none
  | .variable name => addVariable name
  | .input target => do
    let target ← addVariable target
    addNode (.unary .input) none (some target)
  | .call function arguments => do
    let index ← functionIndex function
    let items ← addExprs arguments
    let head ← addChain items
    addNode (.function index) none head
  | .math op operand => do
    let operand ← addExpr operand
    addNode (.unary (.math op)) none (some operand)
  | .arithmetic op left right => do
    let left ← addExpr left
    let right ← addExpr right
    addNode (.binary (.arithmetic op)) (some left) (some right)
  | .comparison op left right => do
    let left ← addExpr left
    let right ← addExpr right
    addNode (.binary (.comparison op)) (some left) (some right)

/-- Adds the nodes of several expressions in order. -/
def addExprs : List Expr → StateM Tree (List NodeId)
  | [] => return []
  | expr :: exprs => do
    let id ← addExpr expr
    let ids ← addExprs exprs
    return id :: ids

end

mutual

/-- Adds the nodes of a statement and returns the topmost one. -/
def addStatement : Statement → StateM Tree NodeId
  | .assign target value => do
    let target ← addVariable target
    let value ← addExpr value
    addNode (.binary .assign) (some target) (some value)
  | .branch condition consequence alternative => do
    let condition ← addExpr condition
    let items ← addStatements consequence
    let consequence ← addChain items
    let items ← addStatements alternative
    let alternative ← addChain items
    let arms ← addNode .separator consequence alternative
    addNode (.control .branch) (some condition) (some arms)
  | .loop condition body => do
    let condition ← addExpr condition
    let items ← addStatements body
    let body ← addChain items
    let arms ← addNode .separator body none
    addNode (.control .loop) (some condition) (some arms)
  | .call function arguments => do
    let index ← functionIndex function
    let items ← addExprs arguments
    let head ← addChain items
    addNode (.function index) none head
  | .ret value => do
    let value ← addExpr value
    addNode (.unary .ret) none (some value)
  | .output op value => do
    let value ← addExpr value
    addNode (.unary (.output op)) none (some value)
  | .input target => do
    let target ← addVariable target
    addNode (.unary .input) none (some target)

/-- Adds the nodes of several statements in order. -/
def addStatements : List Statement → StateM Tree (List NodeId)
  | [] => return []
  | statement :: statements => do
    let id ← addStatement statement
    let ids ← addStatements statements
    return id :: ids

end

/-- A function whose parameters and body are in the tree but which is not linked yet. -/
structure Unlinked where
  index : Nat
  parameters : Option NodeId
  body : Option NodeId
deriving Inhabited

/-- Adds the parameters and the body of a function. -/
def addFunction (definition : Definition) : StateM Tree Unlinked := do
  let index ← functionIndex definition.name
  let items ← addVariables definition.parameters
  let parameters ← addChain items
  let items ← addStatements definition.body
  let body ← addChain items
  return { index, parameters, body }

/-- Adds the parameters and bodies of several functions in order. -/
def addFunctions : List Definition → StateM Tree (List Unlinked)
  | [] => return []
  | definition :: definitions => do
    let function ← addFunction definition
    let functions ← addFunctions definitions
    return function :: functions

/-- Links functions to a chain of definitions, the last one first, and returns its head. -/
def link : List Unlinked → StateM Tree (Option NodeId)
  | [] => return none
  | function :: functions => do
    let next ← link functions
    let header ← addNode .separator function.body function.parameters
    let id ← addNode (.function function.index) (some header) next
    return some id

/-- The list with the item at the given position moved to the front. -/
def toFront {α : Type} (items : List α) (position : Nat) : List α :=
  items[position]?.toList ++ items.eraseIdx position

end Layout

/-- The tree of a program whose definition named `entry` runs first, with the symbol tables of the
given tree to start from. -/
def Program.layout (program : Program) (entry : String) (start : Tree) : Tree :=
  let build : StateM Tree Unit := do
    let functions ← Layout.addFunctions program.definitions
    let root ← Layout.link (Layout.toFront functions (program.entryPosition entry))
    modify fun t => { t with root }
  (build.run start).2

/-- The definition that runs first. -/
def Program.entryDefinition (program : Program) (entry : String) : Definition :=
  (program.definitions[program.entryPosition entry]?).getD program.first

end StackCompiler
