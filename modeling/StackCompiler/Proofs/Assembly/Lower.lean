import StackCompiler.Assembly.Generate
import StackCompiler.Tree.Unfolding

/-!
# Lowering

The code of an unfolding, by recursion on the unfolding: as lines that are not yet written out, and
without a listing that they are added to.  For a tree with a finite unfolding it is the code that is
generated.  An item at which an unfolding is cut has no code, and a chain ends where it is cut.
-/

namespace StackCompiler

namespace Lower

/-- The slot of the variable that a child of `parent` has to be. -/
def slot (parent : NodeId) : Unfolding → Except LoweringError Nat
  | .absent => .error (.malformed parent .missingChild)
  | .dangling id => .error (.dangling id)
  | .cut id => .error (.malformed id .endless)
  | .node _ kind _ _ =>
    match kind with
    | .variable index => .ok index
    | _ => .error (.malformed parent .expectedVariable)

/-- The slots of the variables that the items of a chain have to be, for the definition at
`parent`. -/
def slots (parent : NodeId) : Unfolding → Except LoweringError (List Nat)
  | .node _ _ item next => do
    let first ← slot parent item
    let others ← slots parent next
    return first :: others
  | _ => .ok []

/-- The code of a call: the saved slots are pushed, the arguments are computed, the function is
called, and the slots are restored. -/
def call (entry index : Nat) (saved : List Nat) (arguments : List Line) : List Line :=
  saved.map (fun slot => .instruction (.load slot))
    ++ arguments
    ++ .instruction (.call (target entry index))
    :: saved.reverse.map (fun slot => .instruction (.store slot))

/-- The code of a branch: the condition is compared with zero, and on equality control goes to the
alternative. -/
def branch (number : Nat) (condition consequence alternative : List Line) : List Line :=
  condition
    ++ .instruction (.push (.ofNat 0)) :: .instruction (.jumpIfEqual (.branchFalse number))
    :: consequence
    ++ .instruction (.jump (.branchTrue number)) :: .label (.branchFalse number)
    :: alternative
    ++ [.label (.branchTrue number)]

/-- The code of a loop: the condition is compared with zero before each turn, and on equality
control leaves the loop. -/
def loop (number : Nat) (condition body : List Line) : List Line :=
  .label (.loopTrue number)
    :: condition
    ++ .instruction (.push (.ofNat 0)) :: .instruction (.jumpIfEqual (.loopFalse number))
    :: body
    ++ [.instruction (.jump (.loopTrue number)), .label (.loopFalse number)]

mutual

/-- The code of the expression that a child of `parent` has to be. -/
def expression (entry : Nat) (parent : NodeId) : Unfolding → Except LoweringError (List Line)
  | .absent => .error (.malformed parent .missingChild)
  | .dangling id => .error (.dangling id)
  | .cut id => .error (.malformed id .endless)
  | .node id kind left right =>
    match kind with
    | .number value => .ok [.instruction (.push value)]
    | .variable index => .ok [.instruction (.load index)]
    | .binary .assign => .error (.malformed id .assignmentAsValue)
    | .binary (.arithmetic op) => do
      let first ← expression entry id left
      let second ← expression entry id right
      return first ++ second ++ [.instruction (.arithmetic op)]
    | .binary (.comparison op) => do
      let first ← expression entry id left
      let second ← expression entry id right
      return first ++ second ++ [.instruction (.comparison op)]
    | .unary .input => do
      let slot ← slot id right
      return [.instruction .input, .instruction (.store slot), .instruction (.load slot)]
    | .unary (.math op) => do
      let operand ← expression entry id right
      return operand ++ [.instruction (.math op)]
    | .function index =>
      match left with
      | .absent => do
        let arguments ← arguments entry right
        return call entry index right.mentioned arguments ++ [.instruction .pushResult]
      | _ => .error (.malformed id .notAValue)
    | .hole => .error (.noLowering id .hole)
    | _ => .error (.malformed id .notAValue)

/-- The code of the arguments of a call, one after the other; empty items have none. -/
def arguments (entry : Nat) : Unfolding → Except LoweringError (List Line)
  | .node id _ item next => do
    let first ←
      match item with
      | .absent => .ok []
      | item => expression entry id item
    let others ← arguments entry next
    return first ++ others
  | _ => .ok []

end

/-- The code of one argument; an empty one has none. -/
def argument (entry : Nat) (parent : NodeId) : Unfolding → Except LoweringError (List Line)
  | .absent => .ok []
  | item => expression entry parent item

mutual

/-- The code of a statement; an empty item has none. -/
def statement (entry : Nat) :
    Unfolding → Numbering → Except LoweringError (List Line × Numbering)
  | .absent, numbering => .ok ([], numbering)
  | .dangling id, _ => .error (.dangling id)
  | .cut id, _ => .error (.malformed id .endless)
  | .node id kind left right, numbering =>
    match kind with
    | .binary .assign => do
      let value ← expression entry id right
      let slot ← slot id left
      return (value ++ [.instruction (.store slot)], numbering)
    | .function index =>
      match left with
      | .absent => do
        let arguments ← arguments entry right
        return (call entry index right.mentioned arguments, numbering)
      | _ => .error (.malformed id .notAStatement)
    | .unary .ret => do
      let value ← expression entry id right
      return (value ++ [.instruction .popResult, .instruction .ret], numbering)
    | .unary .input => do
      let slot ← slot id right
      return ([.instruction .input, .instruction (.store slot)], numbering)
    | .unary (.output op) => do
      let value ← expression entry id right
      return (value ++ [.instruction (.output op)], numbering)
    | .control op =>
      match left, right with
      | .absent, _ => .error (.malformed id .missingChild)
      | _, .absent => .error (.malformed id .missingChild)
      | _, .dangling arms => .error (.dangling arms)
      | _, .cut arms => .error (.malformed arms .endless)
      | condition, .node _ kind first second =>
        if kind ≠ .separator then .error (.malformed id .looseArms)
        else
          match op with
          | .branch => do
            let number := numbering.branches
            let test ← expression entry id condition
            let (consequence, numbering) ←
              statements entry first { numbering with branches := number + 1 }
            let (alternative, numbering) ← statements entry second numbering
            return (branch number test consequence alternative, numbering)
          | .loop => do
            let number := numbering.loops
            let test ← expression entry id condition
            let (body, numbering) ← statements entry first { numbering with loops := number + 1 }
            return (loop number test body, numbering)
    | .hole => .error (.noLowering id .hole)
    | _ => .error (.malformed id .notAStatement)

/-- The code of a chain of statements. -/
def statements (entry : Nat) :
    Unfolding → Numbering → Except LoweringError (List Line × Numbering)
  | .node _ _ item next, numbering => do
    let (first, numbering) ← statement entry item numbering
    let (others, numbering) ← statements entry next numbering
    return (first ++ others, numbering)
  | _, numbering => .ok ([], numbering)

end

/-- The function that a definition defines, its body and its parameters. -/
def header : Unfolding → Except LoweringError (Nat × Unfolding × Unfolding)
  | .absent => .error .missingRoot
  | .dangling id => .error (.dangling id)
  | .cut id => .error (.malformed id .endless)
  | .node id (.function index) left _ =>
    match left with
    | .absent => .error (.malformed id .expectedDefinition)
    | .dangling header => .error (.dangling header)
    | .cut header => .error (.malformed header .endless)
    | .node _ _ body parameters => .ok (index, body, parameters)
  | .node id _ _ _ => .error (.malformed id .expectedDefinition)

/-- Whether the last item of a chain returns from the function. -/
def endsWithReturn (body : Unfolding) : Bool :=
  match body.items.getLast? with
  | some (.node _ (.unary .ret) _ _) => true
  | _ => false

/-- The code of the definition at `id`. -/
def definition (entry : Nat) (id : NodeId) (function : Unfolding) (numbering : Numbering) :
    Except LoweringError (List Line × Numbering) := do
  let (index, body, parameters) ← header function
  let slots ← slots id parameters
  let (code, numbering) ← statements entry body numbering
  return (.label (target entry index)
    :: slots.reverse.map (fun slot => .instruction (.store slot))
    ++ code
    ++ (if endsWithReturn body then [] else [.instruction .ret]), numbering)

/-- The code of a chain of definitions. -/
def definitions (entry : Nat) :
    Unfolding → Numbering → Except LoweringError (List Line × Numbering)
  | .node id kind left next, numbering => do
    let (first, numbering) ← definition entry id (.node id kind left .absent) numbering
    let (others, numbering) ← definitions entry next numbering
    return (first ++ others, numbering)
  | _, numbering => .ok ([], numbering)

/-- The definitions after the given unfolding's first one. -/
def others : Unfolding → Unfolding
  | .node _ _ _ next => next
  | _ => .absent

/-- The code of a whole program. -/
def program (root : Unfolding) (numbering : Numbering) :
    Except LoweringError (List Line × Numbering) := do
  let (entry, body, _) ← header root
  let (functions, numbering) ← definitions entry (others root) numbering
  let (main, numbering) ← statements entry body numbering
  return (.instruction (.jump .main)
    :: functions
    ++ .label .main
    :: main
    ++ [.instruction .halt], numbering)

end Lower

/-- The listing with the code of an unfolding added. -/
def Unfolding.lower (root : Unfolding) (listing : Listing) : Except LoweringError Listing := do
  let (code, numbering) ← Lower.program root listing.numbering
  return listing.addCode code numbering

end StackCompiler
