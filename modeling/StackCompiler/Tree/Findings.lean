/-!
# Findings

What the check of a tree can find wrong, and sets of such findings.  A set is a mask of eight bits,
small enough to serve as the exit status of a command.
-/

namespace StackCompiler

/-- One thing that can be wrong with a tree. -/
inductive Finding where
  | rootMissing
  | cycleFound
  | noType
  | operationWrongChildren
  | numberWrongChildren
  | variableWrongChildren
  | unresolvedIndex
  | callArity
deriving DecidableEq, Repr

namespace Finding

/-- All findings, by bit. -/
def all : List Finding :=
  [rootMissing, cycleFound, noType, operationWrongChildren, numberWrongChildren,
   variableWrongChildren, unresolvedIndex, callArity]

/-- The bit of a finding in a mask. -/
def bit : Finding → Nat
  | rootMissing => 0
  | cycleFound => 1
  | noType => 2
  | operationWrongChildren => 3
  | numberWrongChildren => 4
  | variableWrongChildren => 5
  | unresolvedIndex => 6
  | callArity => 7

/-- The name of a finding. -/
def name : Finding → String
  | rootMissing => "ROOT_MISSING"
  | cycleFound => "CYCLE_FOUND"
  | noType => "NO_TYPE"
  | operationWrongChildren => "OPERATION_WRONG_CHILDREN"
  | numberWrongChildren => "NUMBER_WRONG_CHILDREN"
  | variableWrongChildren => "VARIABLE_WRONG_CHILDREN"
  | unresolvedIndex => "UNRESOLVED_INDEX"
  | callArity => "CALL_ARITY"

end Finding

/-- A set of findings. -/
structure Findings where
  mask : BitVec 8 := 0#8
deriving DecidableEq, Inhabited

namespace Findings

instance : EmptyCollection Findings := ⟨{}⟩

/-- Whether a finding is in the set. -/
def contains (findings : Findings) (finding : Finding) : Bool :=
  findings.mask.getLsbD finding.bit

/-- The set with one finding added. -/
def insert (findings : Findings) (finding : Finding) : Findings :=
  { mask := findings.mask ||| BitVec.twoPow 8 finding.bit }

/-- The findings of two sets together. -/
def union (findings others : Findings) : Findings :=
  { mask := findings.mask ||| others.mask }

/-- The set of the given findings. -/
def ofList (list : List Finding) : Findings :=
  list.foldl insert ∅

/-- The findings of a set, by bit. -/
def toList (findings : Findings) : List Finding :=
  Finding.all.filter findings.contains

/-- Whether all findings of a set are in another. -/
def isSubset (findings others : Findings) : Bool :=
  findings.mask &&& others.mask == findings.mask

/-- Whether there is no finding in the set. -/
def isEmpty (findings : Findings) : Bool :=
  findings.mask == 0#8

/-- The mask as a number. -/
def bits (findings : Findings) : Nat := findings.mask.toNat

/-- The names of the findings, joined by bars. -/
def names (findings : Findings) : String :=
  match findings.toList with
  | [] => "no errors"
  | list => " | ".intercalate (list.map (·.name))

/-- The findings as the message of an error. -/
def message (findings : Findings) : String :=
  "tree verification failed: " ++ findings.names

end Findings

end StackCompiler
