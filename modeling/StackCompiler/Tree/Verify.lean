import StackCompiler.Tree.Findings
import StackCompiler.Tree.Reach

/-!
# Verification

A tree is checked as a whole, and everything that is wrong with it is collected: links that do not
form a tree, nodes with the wrong children, positions without a name, and calls that do not fit
their definition.
-/

namespace StackCompiler.Tree

/-- The kind of the node that a link leads to. -/
def kind? (t : Tree) (link : Option NodeId) : Option NodeKind :=
  (link.bind t.get?).map (·.kind)

/-- Whether a link leads to a variable. -/
def leadsToVariable (t : Tree) (link : Option NodeId) : Bool :=
  match t.kind? link with
  | some (.variable _) => true
  | _ => false

/-- The number of items of a chain, at most the size of the arena. -/
def chainLength (t : Tree) (head : Option NodeId) : Nat :=
  (t.chainItems head t.size).length

/-- What is wrong with one node, apart from how it is reached. -/
def nodeFindings (t : Tree) (node : Node) : List Finding :=
  match node.kind with
  | .hole => [.noType]
  | .separator => []
  | .binary op =>
    if node.left.isSome && node.right.isSome && (op != .assign || t.leadsToVariable node.left)
    then [] else [.operationWrongChildren]
  | .unary op =>
    if node.left.isNone && node.right.isSome && (op != .input || t.leadsToVariable node.right)
    then [] else [.operationWrongChildren]
  | .control _ =>
    if node.left.isSome && t.kind? node.right == some .separator
    then [] else [.operationWrongChildren]
  | .number _ => if node.isLeaf then [] else [.numberWrongChildren]
  | .variable index =>
    (if node.isLeaf then [] else [.variableWrongChildren])
      ++ (if t.vars.containsIndex index then [] else [.unresolvedIndex])
  | .function index =>
    (if t.funcs.containsIndex index then [] else [.unresolvedIndex])
      ++ (if node.left.isNone || t.kind? node.left == some .separator
          then [] else [.operationWrongChildren])

/-- The function that a node calls and the number of arguments it gives. -/
def call? (t : Tree) (node : Node) : Option (Nat × Nat) :=
  match node.kind, node.left with
  | .function index, none => some (index, t.chainLength node.right)
  | _, _ => none

/-- The function that a node defines and the number of parameters it takes. -/
def definition? (t : Tree) (node : Node) : Option (Nat × Nat) :=
  match node.kind, node.left.bind t.get? with
  | .function index, some header =>
    if header.kind = .separator then some (index, t.chainLength header.right) else none
  | _, _ => none

/-- What is wrong with a call, given the definitions: the first one of the function counts. -/
def callFindings (definitions : List (Nat × Nat)) (call : Nat × Nat) : List Finding :=
  match definitions.find? (·.1 == call.1) with
  | none => [.unresolvedIndex]
  | some definition => if definition.2 = call.2 then [] else [.callArity]

/-- What is wrong with the links: one leads outside the arena or to a node that was reached before,
or not as many nodes are reached as were made. -/
def linkFindings (t : Tree) (visits : List Visit) : List Finding :=
  let isReached : Visit → Bool
    | .reached _ _ => true
    | _ => false
  if visits.all isReached && visits.length = t.live then [] else [.cycleFound]

/-- Everything that is wrong with a tree. -/
def verify (t : Tree) : Findings :=
  if t.root.isNone then .ofList [.rootMissing]
  else
    let nodes := t.reached.map (·.2)
    let definitions := nodes.filterMap t.definition?
    .ofList
      (t.linkFindings t.visits
        ++ nodes.flatMap t.nodeFindings
        ++ (nodes.filterMap t.call?).flatMap (callFindings definitions))

end StackCompiler.Tree
