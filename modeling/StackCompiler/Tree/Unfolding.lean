import StackCompiler.Tree.Basic

/-!
# Unfoldings

The unfolding of a tree is the binary tree that is seen from its root when every link is followed.
A node that is reached along two paths occurs twice in it, and a link that leads outside the arena
is kept as such.

Along a path of an acyclic arena no node occurs twice, so no path is longer than the arena; the
unfolding follows links to that depth.  A tree with a cycle below its root has no finite unfolding,
and is cut at that depth; where it is cut, only the position of the next node is seen.
-/

namespace StackCompiler

/-- What is seen when links are followed: nothing, a position outside the arena, the position of a
node whose links are not followed, or a node with its position, its kind, and what is seen along its
two links. -/
inductive Unfolding where
  | absent
  | dangling (id : NodeId)
  | cut (id : NodeId)
  | node (id : NodeId) (kind : NodeKind) (left right : Unfolding)
deriving DecidableEq, Inhabited

namespace Tree

/-- What is seen along a link when at most `depth` nodes are passed one after the other. -/
def unfoldTo (t : Tree) : (depth : Nat) → Option NodeId → Unfolding
  | _, none => .absent
  | 0, some id => if id < t.size then .cut id else .dangling id
  | depth + 1, some id =>
    match t.get? id with
    | none => .dangling id
    | some node =>
      .node id node.kind (t.unfoldTo depth node.left) (t.unfoldTo depth node.right)

/-- What is seen along a link. -/
def unfoldFrom (t : Tree) (link : Option NodeId) : Unfolding :=
  t.unfoldTo t.size link

/-- What is seen from the root. -/
def unfolding (t : Tree) : Unfolding :=
  t.unfoldFrom t.root

end Tree

namespace Unfolding

/-- The number of nodes. -/
def size : Unfolding → Nat
  | absent => 0
  | dangling _ => 0
  | cut _ => 0
  | node _ _ left right => left.size + right.size + 1

/-- The items of a chain. -/
def items : Unfolding → List Unfolding
  | absent => []
  | dangling _ => []
  | cut _ => []
  | node _ _ left right => left :: right.items

/-- Whether two unfoldings agree in their links and in the tags and payloads of their nodes.  A
link that leads outside the arena or is not followed agrees with nothing. -/
def sameShape : Unfolding → Unfolding → Bool
  | absent, absent => true
  | node _ kind left right, node _ kind' left' right' =>
    kind.tag == kind'.tag && kind.payload == kind'.payload
      && left.sameShape left' && right.sameShape right'
  | _, _ => false

/-- The variables at the nodes, each as often as it occurs, a node before what hangs on it and left
before right. -/
def mentioned : Unfolding → List Nat
  | absent => []
  | dangling _ => []
  | cut _ => []
  | node _ kind left right =>
    (match kind with
      | .variable index => [index]
      | _ => [])
      ++ left.mentioned ++ right.mentioned

end Unfolding

/-- Whether two trees agree in shape, tags and payloads, whatever the positions of their nodes and
the names in their tables. -/
def Tree.sameShape (t u : Tree) : Bool :=
  t.unfolding.sameShape u.unfolding

end StackCompiler
