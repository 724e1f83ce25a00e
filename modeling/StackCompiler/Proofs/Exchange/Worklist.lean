import StackCompiler.Exchange.Write
import StackCompiler.Proofs.Tree.Unfolds

/-!
# Writing with a worklist

A tree is written by a loop that keeps what is still to be written on a stack: links to follow and
texts to write as they are.  The loop goes on forever on a tree with a cycle below its root.  On a
tree with a finite unfolding it ends, with the text of the tree and each node of the unfolding
written once.
-/

namespace StackCompiler

/-- What is still to be written: what hangs on a link, or a text. -/
inductive Piece where
  | link (link : Option NodeId)
  | text (text : String)

/-- The state of the loop: what is still to be written with the next piece first, the text written
so far, and the nodes written so far. -/
structure Writer where
  pending : List Piece
  text : String := ""
  written : List NodeId := []

namespace Writer

/-- The writer before it writes a tree. -/
def start (t : Tree) : Writer where
  pending := [.link t.root]

/-- One turn of the loop; there is none when nothing is left to be written.  A node is written as
its tag and its payload, and its children follow; a link without a node is written as a line. -/
def step (t : Tree) (writer : Writer) : Option Writer :=
  match writer.pending with
  | [] => none
  | .text text :: pending => some { writer with pending, text := writer.text ++ text }
  | .link link :: pending =>
    match link.bind fun id => (t.get? id).map (id, ·) with
    | none => some { writer with pending, text := writer.text ++ "_" }
    | some (id, n) =>
      some {
        pending := .link n.left :: .text " " :: .link n.right :: .text " )" :: pending
        text := writer.text
          ++ ("( " ++ toString n.kind.tag ++ " " ++ n.kind.payload.text ++ " ")
        written := writer.written ++ [id] }

/-- The loop comes from one state to another. -/
inductive Runs (t : Tree) : Writer → Writer → Prop where
  | refl (writer : Writer) : Runs t writer writer
  | step {writer next final : Writer} (hstep : writer.step t = some next)
      (hnext : Runs t next final) : Runs t writer final

/-- The loop ends in a state. -/
def Ends (t : Tree) (writer final : Writer) : Prop :=
  Runs t writer final ∧ final.step t = none

variable {t : Tree}

/-- One run after the other. -/
theorem Runs.trans {writer middle final : Writer} (h : Runs t writer middle)
    (h' : Runs t middle final) :
  Runs t writer final
  := by
  induction h with
  | refl => apply h'
  | step hstep hnext ih => apply Runs.step hstep (ih h')

end Writer

/-! ### The text of an unfolding -/

/-- A tag is written as the integer. -/
theorem NodeKind.text_tag (kind : NodeKind) :
  (Binary64.ofInt kind.tag).text = toString kind.tag
  := by
  have hall : ∀ tag ∈ ([-1, 0, 1, 2, 3, 4, 5, 6] : List Int),
      (Binary64.ofInt tag).text = toString tag := by
    decide +kernel
  apply hall
  cases kind <;> simp [tag]

namespace Unfolding

/-- The symbols of an unfolding, separated by spaces. -/
def text (u : Unfolding) : String :=
  " ".intercalate ((u.symbols []).map (·.text))

/-- What is written next comes after the symbols of the node. -/
theorem symbols_append (u : Unfolding) (further : List Exchange.Symbol) :
  u.symbols further = u.symbols [] ++ further
  := by
  induction u generalizing further with
  | absent => rfl
  | dangling id => rfl
  | cut id => rfl
  | node id kind left right ihl ihr =>
    simp only [symbols]
    rw [ihl, ihr, ihl (right.symbols _), ihr [.closing]]
    simp

/-- Something is written for every link. -/
theorem symbols_ne_nil (u : Unfolding) :
  u.symbols [] ≠ []
  := by
  cases u <;> simp [symbols]

/-- The text of a node: its tag, its payload and its children between parentheses, with blanks
between them. -/
theorem text_node (id : NodeId) (kind : NodeKind) (left right : Unfolding) :
  (node id kind left right).text
    = "( " ++ toString kind.tag ++ " " ++ kind.payload.text ++ " " ++ left.text ++ " " ++ right.text
      ++ " )"
  := by
  have hopening : "( " = "(" ++ " " := rfl
  have hclosing : " )" = " " ++ ")" := rfl
  have hleft : (left.symbols []).map (·.text) ≠ [] := by simp [symbols_ne_nil]
  have hright : (right.symbols []).map (·.text) ≠ [] := by simp [symbols_ne_nil]
  rw [text, symbols, symbols_append left, symbols_append right]
  simp only [List.map_cons, List.map_append, List.map_nil, String.intercalate_cons_cons]
  rw [String.intercalate_cons_of_ne_nil (by simp [hleft]),
    String.intercalate_append_of_ne_nil hleft (by simp),
    String.intercalate_append_of_ne_nil hright (by simp), String.intercalate_singleton]
  simp only [Exchange.Symbol.text, NodeKind.text_tag, text, hopening, hclosing, String.append_assoc]

end Unfolding

namespace Writer

variable {t : Tree}

/-- Following a link with a finite unfolding writes its text and its nodes before the loop goes on
with what was left. -/
theorem runs_link {link : Option NodeId} {u : Unfolding} (hu : t.Unfolds link u)
    (pending : List Piece) (text : String) (written : List NodeId) :
  Runs t { pending := .link link :: pending, text, written }
    { pending, text := text ++ u.text, written := written ++ u.ids }
  := by
  induction hu generalizing pending text written with
  | absent =>
    apply Runs.step rfl
    rw [Unfolding.ids, List.append_nil]
    apply Runs.refl
  | @node id n left right hget hleft hright ihl ihr =>
    have hstep : step t { pending := .link (some id) :: pending, text, written }
        = some {
            pending := .link n.left :: .text " " :: .link n.right :: .text " )" :: pending
            text := text ++ ("( " ++ toString n.kind.tag ++ " " ++ n.kind.payload.text ++ " ")
            written := written ++ [id] } := by
      simp only [step, Option.bind_some, hget, Option.map_some]
    apply Runs.step hstep
    apply (ihl _ _ _).trans
    apply Runs.step rfl
    apply (ihr _ _ _).trans
    apply Runs.step rfl
    rw [Unfolding.text_node, Unfolding.ids]
    simp only [String.append_assoc, List.append_assoc, List.singleton_append]
    apply Runs.refl

/-- On a tree with a finite unfolding the loop ends, with its text and its nodes. -/
theorem ends_of_unfolds {u : Unfolding} (hu : t.Unfolds t.root u) :
  ∃ final, Ends t (start t) final ∧ final.text ++ "\n" = t.dump ∧ final.written = u.ids
  := by
  use { pending := [], text := u.text, written := u.ids }
  constructor
  · use runs_link hu [] "" []
    rfl
  · constructor
    · rw [Tree.dump, Tree.symbols, hu.unfolding_eq, Unfolding.text]
    · rfl

end Writer

end StackCompiler
