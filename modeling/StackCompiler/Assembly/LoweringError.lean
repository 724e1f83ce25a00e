import StackCompiler.Tree.Basic

/-!
# Errors of code generation

Why a tree has no code.  An error names the node that is to blame, or the position that a link
leads to if there is no node.
-/

namespace StackCompiler

/-- What is wrong with a node that has no code. -/
inductive Malformation where
  | missingChild
  | expectedVariable
  | expectedDefinition
  | notAStatement
  | looseArms
  | assignmentAsValue
  | notAValue
  | endless
deriving DecidableEq, Repr

/-- Why a tree has no code. -/
inductive LoweringError where
  | missingRoot
  | dangling (id : NodeId)
  | noLowering (id : NodeId) (kind : NodeKind)
  | malformed (id : NodeId) (malformation : Malformation)
deriving DecidableEq

/-- What is wrong with a node, as messages show it. -/
def Malformation.text : Malformation → String
  | missingChild => "missing child"
  | expectedVariable => "expected a variable"
  | expectedDefinition => "expected a function definition"
  | notAStatement => "not a statement"
  | looseArms => "branches are not held by a separator"
  | assignmentAsValue => "assignment used as a value"
  | notAValue => "not a value"
  | endless => "its links lead on without end"

/-- The position of a node, as messages show it. -/
def nodeText (id : NodeId) : String := "#" ++ toString id

/-- The error as messages show it. -/
def LoweringError.message : LoweringError → String
  | missingRoot => "the tree has no root"
  | dangling id => "link to " ++ nodeText id ++ " points outside the tree"
  | noLowering id kind => nodeText id ++ " (" ++ kind.text ++ ") has no lowering rule"
  | malformed id malformation => nodeText id ++ " is malformed: " ++ malformation.text

end StackCompiler
