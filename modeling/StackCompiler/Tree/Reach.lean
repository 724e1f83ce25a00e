import StackCompiler.Tree.Basic

/-!
# Reach

The nodes of a tree are visited from the root, each one before what hangs on it and the left side
before the right one.  A node that was visited before is not entered again, so the walk ends for
every tree, also for one with cycles.
-/

namespace StackCompiler

/-- One step of the walk: a node that is reached for the first time, a node that was reached
before, or a position outside the arena. -/
inductive Visit where
  | reached (id : NodeId) (node : Node)
  | again (id : NodeId)
  | dangling (id : NodeId)
deriving DecidableEq

namespace Tree

private theorem count_set_true_lt {visited : Array Bool} {id : Nat}
    (h : visited[id]? = some false) :
  (visited.setIfInBounds id true).toList.count false < visited.toList.count false
  := by
  obtain ⟨hid, hfalse⟩ := Array.getElem?_eq_some_iff.mp h
  have hpos : 0 < visited.toList.count false := by
    apply List.count_pos_iff.mpr
    rw [← hfalse]
    exact Array.mem_toList_iff.mpr (Array.getElem_mem hid)
  rw [Array.toList_setIfInBounds, List.count_set (by simpa using hid)]
  simp only [Array.getElem_toList, hfalse, BEq.rfl, if_true]
  simp only [Bool.true_beq, Bool.false_eq_true, if_false]
  omega

/-- The walk that goes on with the given stack, where `visited` tells for each position whether its
node was reached. -/
def visitsFrom (t : Tree) (visited : Array Bool) (stack : List NodeId) : List Visit :=
  match stack with
  | [] => []
  | id :: rest =>
    match t.get? id with
    | none => .dangling id :: t.visitsFrom visited rest
    | some node =>
      if _h : visited[id]? = some false then
        .reached id node
          :: t.visitsFrom (visited.setIfInBounds id true)
              (node.left.toList ++ (node.right.toList ++ rest))
      else .again id :: t.visitsFrom visited rest
termination_by 3 * visited.toList.count false + stack.length
decreasing_by
  · simp
  · have hleft : node.left.toList.length ≤ 1 := by cases node.left <;> simp
    have hright : node.right.toList.length ≤ 1 := by cases node.right <;> simp
    have hcount := count_set_true_lt _h
    simp only [List.length_append, List.length_cons]
    omega
  · simp

/-- The walk from the root. -/
def visits (t : Tree) : List Visit :=
  t.visitsFrom (Array.replicate t.size false) t.root.toList

/-- The nodes that are reached from the root, with their positions, in the order of the walk. -/
def reached (t : Tree) : List (NodeId × Node) :=
  t.visits.filterMap fun
    | .reached id node => some (id, node)
    | _ => none

end Tree

end StackCompiler
