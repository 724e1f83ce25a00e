import StackCompiler.Assembly.Basic
import StackCompiler.Run

/-!
# Code generation

The code of a tree, added to a listing.  An expression leaves its value on the stack, and a
statement leaves the stack as it was.  A call first saves every variable that its arguments mention
and restores them afterwards; the value that a function returns is in the result register.  A
function takes its parameters off the stack, the last one first.

Branches and loops are numbered independently in the order in which they are met.  The code of the
definitions comes before that of the entry function, which stands under its own label.

The generator goes where the links lead, and links may lead in a circle.  So the number of nodes
that it passes, one after the other, is bounded.  A bound beyond the size of the arena is as good as
none: a walk that goes on for longer has come to some node for the second time, and comes to it
again and again.
-/

namespace StackCompiler

/-- The label of a function; the entry function has its own. -/
def Lower.target (entry index : Nat) : Label :=
  if index = entry then .main else .function index

/-- Work on a listing: lines are added and events are reported, until something has no code. -/
abbrev Emit (α : Type) := StateT Listing Run α

namespace Emit

/-- Ends the work with an error. -/
def fail {α : Type} (error : LoweringError) : Emit α :=
  fun _ => .fail (.lower error)

/-- Goes on with a value, if there is one. -/
def ofExcept {α : Type} : Except LoweringError α → Emit α
  | .ok a => pure a
  | .error error => fail error

/-- Reports events. -/
def report (events : List Event) : Emit Unit :=
  StateT.lift (.report events)

/-- Adds the text of an instruction. -/
def instruct (text : String) : Emit Unit :=
  modify (·.addInstruction text)

/-- Adds an instruction. -/
def instruction (i : Instruction) : Emit Unit :=
  instruct i.text

/-- Adds a label. -/
def label (l : Label) : Emit Unit :=
  modify (·.addLabel l.text)

/-- The code of a branch: the condition is compared with zero, and on equality control goes to the
alternative. -/
def branch (condition consequence alternative : Emit Unit) : Emit Unit := do
  let number ← modifyGet (·.takeBranch)
  condition
  instruction (.push (.ofNat 0))
  instruction (.jumpIfEqual (.branchFalse number))
  consequence
  instruction (.jump (.branchTrue number))
  label (.branchFalse number)
  alternative
  label (.branchTrue number)

/-- The code of a loop: the condition is compared with zero before each turn, and on equality
control leaves the loop. -/
def loop (condition body : Emit Unit) : Emit Unit := do
  let number ← modifyGet (·.takeLoop)
  label (.loopTrue number)
  condition
  instruction (.push (.ofNat 0))
  instruction (.jumpIfEqual (.loopFalse number))
  body
  instruction (.jump (.loopTrue number))
  label (.loopFalse number)

/-- What is done along a link; nothing is done if there is none. -/
def along {α : Type} (act : NodeId → Emit (List α)) : Option NodeId → Emit (List α)
  | none => pure []
  | some id => act id

end Emit

/-- Ends the work because the bound on links is met on the way from `root`. -/
def Emit.endless {α : Type} (root : NodeId) : Emit α :=
  fail (.malformed root .endless)

/-- What `step` does at a node, given what is done at the nodes that it leads to, when at most
`reach` nodes are passed one after the other on the way from `root`. -/
def Emit.walk {α : Type} (root : NodeId) (step : (NodeId → Emit α) → NodeId → Emit α) :
    (reach : Nat) → NodeId → Emit α
  | 0, _ => endless root
  | reach + 1, id => step (walk root step reach) id

/-! ### Nodes -/

namespace Tree

/-- The node at a position, which has to be in the arena. -/
def expectNode (t : Tree) (id : NodeId) : Except LoweringError Node :=
  match t.get? id with
  | some node => .ok node
  | none => .error (.dangling id)

/-- The child that `parent` has to have. -/
def expectChild (parent : NodeId) : Option NodeId → Except LoweringError NodeId
  | some id => .ok id
  | none => .error (.malformed parent .missingChild)

/-- The slot of the variable that a child of `parent` has to be. -/
def expectSlot (t : Tree) (parent : NodeId) (link : Option NodeId) :
    Except LoweringError Nat := do
  let node ← t.expectNode (← expectChild parent link)
  match node.kind with
  | .variable index => return index
  | _ => .error (.malformed parent .expectedVariable)

/-- The function that has to be defined at a position, and the node that holds its body and its
parameters. -/
def expectHeader (t : Tree) (id : NodeId) : Except LoweringError (Nat × Node) := do
  let node ← t.expectNode id
  match node.kind, node.left with
  | .function index, some header => return (index, ← t.expectNode header)
  | _, _ => .error (.malformed id .expectedDefinition)

/-- The condition that a branch or a loop has to have, and the node that holds what it decides
about. -/
def expectArms (t : Tree) (id : NodeId) (node : Node) : Except LoweringError (NodeId × Node) := do
  let condition ← expectChild id node.left
  let arms ← t.expectNode (← expectChild id node.right)
  if arms.kind ≠ .separator then .error (.malformed id .looseArms)
  else return (condition, arms)

end Tree

/-- A tree with its root, the function that runs first, and the number of nodes that are passed one
after the other. -/
structure Generator where
  tree : Tree
  root : NodeId
  reach : Nat
  entry : Nat

namespace Generator

open Emit StackCompiler.Tree

variable (g : Generator)

/-! ### Walks over links -/

/-- The variables at a node and at all that hangs on it, each as often as it occurs, a node before
what hangs on it and left before right. -/
def mentionedStep (again : NodeId → Emit (List Nat)) (id : NodeId) : Emit (List Nat) :=
  match g.tree.get? id with
  | none => pure []
  | some node => do
    let left ← along again node.left
    let right ← along again node.right
    return (match node.kind with
      | .variable index => [index]
      | _ => [])
      ++ left ++ right

/-- The variables along a link. -/
def mentioned : Option NodeId → Emit (List Nat) :=
  along (walk g.root g.mentionedStep g.reach)

/-- Acts on a node of a chain and then on those that come after it.  The chain ends where a link
leads nowhere. -/
def chainStep {α : Type} (act : NodeId → Node → Emit α) (again : NodeId → Emit (List α))
    (id : NodeId) : Emit (List α) :=
  match g.tree.get? id with
  | none => pure []
  | some node => do
    let first ← act id node
    let others ← along again node.right
    return first :: others

/-- Acts on the nodes of the chain that starts at `head`. -/
def chain {α : Type} (act : NodeId → Node → Emit α) (head : Option NodeId) : Emit (List α) :=
  along (walk g.root (g.chainStep act) g.reach) head

/-- Acts on the items of a chain that are not empty. -/
def items (act : NodeId → Emit Unit) (head : Option NodeId) : Emit Unit := do
  let _ ← g.chain (fun _ node =>
    match node.left with
    | none => pure ()
    | some item => act item) head

/-- The last item of a chain. -/
def lastItem (head : Option NodeId) : Emit (Option NodeId) := do
  let items ← g.chain (fun _ node => pure node.left) head
  return items.getLast?.join

/-! ### Expressions -/

/-- The code of a call: the variables that the arguments mention are pushed, the arguments are
computed, the function is called, and the variables are restored. -/
def call (value : NodeId → Emit Unit) (index : Nat) (arguments : Option NodeId) (asValue : Bool) :
    Emit Unit := do
  let saved ← g.mentioned arguments
  saved.forM fun slot => instruction (.load slot)
  g.items value arguments
  instruction (.call (Lower.target g.entry index))
  saved.reverse.forM fun slot => instruction (.store slot)
  if asValue then instruction .pushResult

/-- The code of the expression at a position, given that of others. -/
def expressionStep (value : NodeId → Emit Unit) (id : NodeId) : Emit Unit := do
  let node ← ofExcept (g.tree.expectNode id)
  match node.kind with
  | .number value => instruction (.push value)
  | .variable index => instruction (.load index)
  | .binary .assign => fail (.malformed id .assignmentAsValue)
  | .binary op =>
    value (← ofExcept (expectChild id node.left))
    value (← ofExcept (expectChild id node.right))
    instruct op.mnemonic
  | .unary .input =>
    let slot ← ofExcept (g.tree.expectSlot id node.right)
    instruction .input
    instruction (.store slot)
    instruction (.load slot)
  | .unary op =>
    if op.isStatementOnly then fail (.malformed id .notAValue)
    else
      value (← ofExcept (expectChild id node.right))
      instruct op.mnemonic
  | .function index =>
    if node.left.isNone then g.call value index node.right true
    else fail (.malformed id .notAValue)
  | .hole => fail (.noLowering id .hole)
  | _ => fail (.malformed id .notAValue)

/-- The code of the expression at a position. -/
def expression : NodeId → Emit Unit :=
  walk g.root g.expressionStep g.reach

/-! ### Statements -/

/-- The code of the statement at a position, given that of others. -/
def statementStep (inner : NodeId → Emit Unit) (id : NodeId) : Emit Unit := do
  let node ← ofExcept (g.tree.expectNode id)
  match node.kind with
  | .binary .assign =>
    g.expression (← ofExcept (expectChild id node.right))
    let slot ← ofExcept (g.tree.expectSlot id node.left)
    instruction (.store slot)
  | .function index =>
    if node.left.isNone then g.call g.expression index node.right false
    else fail (.malformed id .notAStatement)
  | .unary .ret =>
    g.expression (← ofExcept (expectChild id node.right))
    instruction .popResult
    instruction .ret
  | .unary .input =>
    let slot ← ofExcept (g.tree.expectSlot id node.right)
    instruction .input
    instruction (.store slot)
  | .unary (.output op) =>
    g.expression (← ofExcept (expectChild id node.right))
    instruct (UnaryOp.output op).mnemonic
  | .control op =>
    let (condition, arms) ← ofExcept (g.tree.expectArms id node)
    match op with
    | .branch =>
      branch (g.expression condition) (g.items inner arms.left) (g.items inner arms.right)
    | .loop => loop (g.expression condition) (g.items inner arms.left)
  | .hole => fail (.noLowering id .hole)
  | _ => fail (.malformed id .notAStatement)

/-- The code of the statement at a position. -/
def statement : NodeId → Emit Unit :=
  walk g.root g.statementStep g.reach

/-- The code of a chain of statements. -/
def statements : Option NodeId → Emit Unit :=
  g.items g.statement

/-! ### Programs -/

/-- Whether the last item of a chain returns from the function. -/
def endsWithReturn (body : Option NodeId) : Emit Bool := do
  let last ← g.lastItem body
  return (last.bind g.tree.get?).any fun node => node.kind = .unary .ret

/-- The code of the definition at a position. -/
def definition (id : NodeId) : Emit Unit := do
  let (index, header) ← ofExcept (g.tree.expectHeader id)
  report [.functionBegun index]
  label (Lower.target g.entry index)
  let slots ← g.chain (fun _ node => ofExcept (g.tree.expectSlot id node.left)) header.right
  slots.reverse.forM fun slot => instruction (.store slot)
  g.statements header.left
  unless ← g.endsWithReturn header.left do
    instruction .ret

/-- The code of the definitions after the first one and of the body of the first one. -/
def program (header : Node) : Emit Unit := do
  instruction (.jump .main)
  let _ ← g.chain (fun id _ => g.definition id) ((g.tree.get? g.root).bind (·.right))
  label .main
  g.statements header.left
  instruction .halt

end Generator

/-- The code of a tree with the given root, when at most `reach` nodes are passed one after the
other. -/
def Tree.emit (t : Tree) (root : NodeId) (reach : Nat) : Emit Unit := do
  let (entry, header) ← .ofExcept (t.expectHeader root)
  Generator.program { tree := t, root, reach, entry } header

/-- The given listing with the code of a tree added, when at most `reach` nodes are passed one after
the other. -/
def generateWithin (reach : Nat) (t : Tree) (listing : Listing) : Run Listing :=
  match t.root with
  | none => .fail (.lower .missingRoot)
  | some root => do
    let (_, listing) ← (t.emit root reach).run listing
    .report [.generated listing.lines.length]
    return listing

/-- The given listing with the code of a tree added. -/
def generate (t : Tree) (listing : Listing) : Run Listing :=
  generateWithin (t.size + 1) t listing

end StackCompiler
