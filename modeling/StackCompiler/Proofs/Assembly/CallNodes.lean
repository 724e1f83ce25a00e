import StackCompiler.Proofs.Assembly.Calls
import StackCompiler.Proofs.Assembly.Emission
import StackCompiler.Proofs.Exchange.RoundTrip
import StackCompiler.Proofs.Tree.Flags

/-!
# The code of call nodes

Every call node that has code is a node of the arena, and it is emitted in one piece: what it saves,
the code of its arguments, the call instruction, and what it restores.  After that the result is
pushed if the call stands where a value is wanted, and it is not pushed if the call is a statement.
The pieces of the calls within its arguments lie inside the piece of a call, so their call
instructions come before its own.
-/

namespace StackCompiler

namespace CallNode

/-- The variables below the arguments of a call, a node before what hangs on it and left before
right, each as often as it occurs. -/
def saved (node : CallNode) : List Nat :=
  node.arguments.kinds.filterMap (·.variableIndex?)

/-- The number of values that a call gives to its function: empty arguments give none. -/
def arity (node : CallNode) : Nat :=
  node.arguments.filledItems.length

/-- The code of a call node, given that of its arguments. -/
def code (node : CallNode) (entry : Nat) (values : List (List Line)) : List Line :=
  node.saved.map (fun slot => .instruction (.load slot))
    ++ values.flatten
    ++ .instruction (.call (Lower.target entry node.index))
    :: node.saved.reverse.map (fun slot => .instruction (.store slot))
    ++ if node.asValue then [.instruction .pushResult] else []

end CallNode

namespace Unfolding

/-- The variables below a link are those among the kinds of its nodes. -/
theorem mentioned_eq_filterMap (u : Unfolding) :
  u.mentioned = u.kinds.filterMap (·.variableIndex?)
  := by
  induction u with
  | absent | dangling id | cut id => rfl
  | node id kind left right ihl ihr =>
    cases kind <;> simp [mentioned, kinds, NodeKind.variableIndex?, ihl, ihr]

end Unfolding

/-! ### Call nodes in the arena -/

namespace Tree

/-- The call node is a node of the arena that calls the function with the arguments. -/
def HasCallNode (t : Tree) (node : CallNode) : Prop :=
  ∃ n, t.get? node.id = some n ∧ n.Calls node.index ∧ t.Unfolds n.right node.arguments

variable {t : Tree} {node : CallNode}

/-- A node of an unfolding is a node of the arena with the same kind, and its links lead to what
hangs on it. -/
theorem Unfolds.exists_get? {link : Option NodeId} {id : NodeId} {kind : NodeKind}
    {left right : Unfolding} (h : t.Unfolds link (.node id kind left right)) :
  ∃ n, t.get? id = some n ∧ n.kind = kind ∧ t.Unfolds n.left left ∧ t.Unfolds n.right right
  := by
  cases h with
  | node hget hleft hright => exact ⟨_, hget, rfl, hleft, hright⟩

/-- Only a missing link unfolds to nothing. -/
theorem Unfolds.eq_none {link : Option NodeId} (h : t.Unfolds link .absent) :
  link = none
  := by
  cases h
  rfl

/-- A part of what is seen along a link is what is seen along some link. -/
theorem Unfolds.of_part {link : Option NodeId} {u v : Unfolding} (hu : t.Unfolds link u)
    (h : v.Part u) :
  ∃ link', t.Unfolds link' v
  := by
  induction h generalizing link with
  | refl => exact ⟨link, hu⟩
  | left id kind right h ih =>
    obtain ⟨n, -, -, hleft, -⟩ := hu.exists_get?
    exact ih hleft
  | right id kind left h ih =>
    obtain ⟨n, -, -, -, hright⟩ := hu.exists_get?
    exact ih hright

/-- Every call node of a program is in the arena. -/
theorem hasCallNode_of_mem_programCallNodes {u : Unfolding} {link : Option NodeId}
    (hu : t.Unfolds link u) (h : node ∈ u.programCallNodes) :
  t.HasCallNode node
  := by
  obtain ⟨link', hcall⟩ := hu.of_part (Unfolding.part_of_mem_programCallNodes h)
  obtain ⟨n, hget, hkind, hleft, hright⟩ := hcall.exists_get?
  exact ⟨n, hget, ⟨hkind, hleft.eq_none⟩, hright⟩

end Tree

/-! ### Pieces of code -/

/-- The code of a call node is that of its call, and the result is pushed if a value is wanted. -/
theorem CallNode.code_eq (node : CallNode) (entry : Nat) (values : List (List Line)) :
  node.code entry values
    = Lower.call entry node.index node.arguments.mentioned values.flatten
      ++ if node.asValue then [.instruction .pushResult] else []
  := by
  rw [Unfolding.mentioned_eq_filterMap]
  rfl

/-- The code of a call node, with that of its arguments, is what the call in the code makes up. -/
theorem Lower.IsCallOf.code_eq {entry : Nat} {node : CallNode} {call : CallCode}
    (h : IsCallOf entry node call) :
  node.code entry call.values
    = Lower.call entry call.index call.saved call.values.flatten ++ call.result
  := by
  rw [CallNode.code_eq, h.isCall.index, h.isCall.saved, CallCode.result, h.asValue]

/-- Every call node of a program is emitted in one piece, and nothing else calls a function: the
piece has the code of the arguments in it, its call instruction stands at the place of the node, and
nothing after the piece pushes the result once more. -/
theorem Lower.program_pieces {u : Unfolding} {start stop : Numbering} {code : List Line}
    (h : program u start = .ok (code, stop)) :
  ∃ entry, u.functions.head?.map (·.1) = some entry
    ∧ callTargets code = u.programCallNodes.map (fun node => target entry node.index)
    ∧ ∀ place node, u.programCallNodes[place]? = some node →
        ∃ before values after, code = before ++ node.code entry values ++ after
          ∧ ArgumentValues entry node.arguments values
          ∧ (callTargets (before ++ values.flatten)).length = place
          ∧ beginsWithResult after = false
  := by
  obtain ⟨entry, body, parameters, calls, hfunctions, hform, hcalls⟩ := program_form h
  have hsites := hform.callSites
  refine ⟨entry, ?_, hsites.targets.trans (map_target_eq hcalls), ?_⟩
  · rw [hfunctions, List.head?_cons, Option.map_some]
  · intro place node hnode
    obtain ⟨call, hcall, his⟩ := getElem?_of_forall₂ hcalls.flip hnode
    obtain ⟨before, after, hcode, hplace, hafter⟩ := hsites.piece hcall
    rw [← his.code_eq] at hcode
    exact ⟨before, call.values, after, hcode, his.isCall.values, hplace, hafter⟩

end StackCompiler
