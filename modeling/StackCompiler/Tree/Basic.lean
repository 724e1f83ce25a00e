import StackCompiler.Binary64.Decimal
import StackCompiler.Operator
import StackCompiler.SymbolTable

/-!
# Trees

A tree is an arena of binary nodes that refer to each other by position, a root, the number of nodes
that were made, and the names of its variables and functions.  Nothing forces the links to form a
tree: a link may point outside the arena, to a node that is reached twice, or back to an ancestor.

Lists are right-linked chains of separators that hold one item each on their left.  A function
node with a left child is a definition: its left child holds the body on the left and the
parameters on the right, and its right child is the next definition.  A function node without a
left child is a call whose right child is the chain of arguments.
-/

namespace StackCompiler

/-- The position of a node in the arena of its tree. -/
abbrev NodeId := Nat

/-- What a node stands for, apart from its links. -/
inductive NodeKind where
  | hole
  | separator
  | binary (op : BinaryOp)
  | unary (op : UnaryOp)
  | control (op : ControlOp)
  | number (value : Binary64)
  | variable (index : Nat)
  | function (index : Nat)
deriving DecidableEq

namespace NodeKind

/-- The number of the family that the node belongs to. -/
def tag : NodeKind → Int
  | .hole => -1
  | .separator => 0
  | .binary _ => 1
  | .unary _ => 2
  | .control _ => 3
  | .number _ => 4
  | .variable _ => 5
  | .function _ => 6

/-- The member of its family that the node is, as a number. -/
def payload : NodeKind → Binary64
  | .hole => .ofNat 0
  | .separator => .ofNat Mark.separator.code
  | .binary op => .ofNat op.code
  | .unary op => .ofNat op.code
  | .control op => .ofNat op.code
  | .number value => value
  | .variable index => .ofNat index
  | .function index => .ofNat index

/-- The kind of a node as messages show it. -/
def text : NodeKind → String
  | .hole => "NO_TYPE"
  | .separator => "SEPARATOR"
  | .binary op => op.mnemonic
  | .unary op => op.mnemonic
  | .control .branch => "IF"
  | .control .loop => "WHILE"
  | .number value => value.text
  | .variable index => "VAR " ++ toString index
  | .function index => "FUNC " ++ toString index

end NodeKind

/-- A node: its kind, its two children, and the node that last adopted it. -/
structure Node where
  kind : NodeKind
  left : Option NodeId := none
  right : Option NodeId := none
  parent : Option NodeId := none
deriving DecidableEq

namespace Node

/-- The children that a node has, left one first. -/
def children (node : Node) : List NodeId :=
  node.left.toList ++ node.right.toList

/-- Whether a node has no child. -/
def isLeaf (node : Node) : Bool :=
  node.left.isNone && node.right.isNone

end Node

/-- An arena of nodes with a root, the number of nodes that were made, and two symbol tables. -/
structure Tree where
  nodes : Array Node := #[]
  root : Option NodeId := none
  live : Nat := nodes.size
  vars : SymbolTable := {}
  funcs : SymbolTable := {}
deriving DecidableEq, Inhabited

namespace Tree

/-- The node at a position. -/
def get? (t : Tree) (id : NodeId) : Option Node :=
  t.nodes[id]?

/-- The number of nodes in the arena. -/
def size (t : Tree) : Nat := t.nodes.size

/-- The tree with `parent` as the parent of `child`, if `child` is in the arena. -/
def adopt (t : Tree) (parent : NodeId) (child : NodeId) : Tree :=
  match t.get? child with
  | some node => { t with nodes := t.nodes.setIfInBounds child { node with parent := some parent } }
  | none => t

/-- A new node at the end of the arena that adopts its children and is counted. -/
def node (t : Tree) (kind : NodeKind) (left right : Option NodeId) : NodeId × Tree :=
  let id := t.size
  let grown := { t with nodes := t.nodes.push { kind, left, right }, live := t.live + 1 }
  (id, (left.toList ++ right.toList).foldl (fun t child => t.adopt id child) grown)

/-- A new node without children. -/
def leaf (t : Tree) (kind : NodeKind) : NodeId × Tree :=
  t.node kind none none

/-- A new chain of separators that holds the items in order; no items make no chain. -/
def chain (t : Tree) (items : List NodeId) : Option NodeId × Tree :=
  items.foldr
    (fun item (next, t) =>
      let (id, t) := t.node .separator (some item) next
      (some id, t))
    (none, t)

/-- The tree with other children for a node of the arena; parents and the count stay as they are. -/
def setChildren (t : Tree) (id : NodeId) (left right : Option NodeId) : Tree :=
  match t.get? id with
  | some node => { t with nodes := t.nodes.setIfInBounds id { node with left, right } }
  | none => t

/-- The node that last adopted a node. -/
def parent? (t : Tree) (id : NodeId) : Option NodeId :=
  (t.get? id).bind (·.parent)

/-- The first items of the chain that starts at `head`, at most `limit` of them; a separator
without a left child gives an empty item.  The chain ends where a link leads nowhere. -/
def chainItems (t : Tree) (head : Option NodeId) : (limit : Nat) → List (Option NodeId)
  | 0 => []
  | limit + 1 =>
    match head.bind t.get? with
    | some node => node.left :: t.chainItems node.right limit
    | none => []

/-- The nodes that are met along right links from `start`, at most `limit` of them. -/
def rightward (t : Tree) (start : Option NodeId) : (limit : Nat) → List NodeId
  | 0 => []
  | limit + 1 =>
    match start with
    | none => []
    | some id =>
      match t.get? id with
      | some node => id :: t.rightward node.right limit
      | none => []

/-- The first definitions of the tree, entry first, at most `limit` of them. -/
def definitions (t : Tree) (limit : Nat) : List NodeId :=
  t.rightward t.root limit

end Tree

end StackCompiler
