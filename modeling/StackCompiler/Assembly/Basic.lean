import StackCompiler.Binary64.Decimal
import StackCompiler.Operator

/-!
# Assembly

Code for a stack machine with one register for results and one memory slot for each variable.  A
listing is code as text, one instruction or label a line, together with the numbers that the next
branch and the next loop get.
-/

namespace StackCompiler

/-- A place in the code that jumps and calls refer to. -/
inductive Label where
  | main
  | function (index : Nat)
  | branchFalse (number : Nat)
  | branchTrue (number : Nat)
  | loopTrue (number : Nat)
  | loopFalse (number : Nat)
deriving DecidableEq, Repr

/-- An instruction of the machine. -/
inductive Instruction where
  | push (value : Binary64)
  | load (slot : Nat)
  | pushResult
  | store (slot : Nat)
  | popResult
  | math (op : MathOp)
  | arithmetic (op : ArithmeticOp)
  | comparison (op : Comparison)
  | output (op : OutputOp)
  | input
  | jump (target : Label)
  | jumpIfEqual (target : Label)
  | call (target : Label)
  | ret
  | halt
deriving DecidableEq

/-- A line of code. -/
inductive Line where
  | instruction (instruction : Instruction)
  | label (label : Label)
deriving DecidableEq

/-- The label as it is written. -/
def Label.text : Label → String
  | main => ":main"
  | function index => ":func" ++ toString index
  | branchFalse number => ":if_false_label" ++ toString number
  | branchTrue number => ":if_true_label" ++ toString number
  | loopTrue number => ":while_true_label" ++ toString number
  | loopFalse number => ":while_false_label" ++ toString number

/-- The instruction as it is written. -/
def Instruction.text : Instruction → String
  | push value => "PUSH " ++ value.text
  | load slot => "PUSH [" ++ toString slot ++ "]"
  | pushResult => "PUSH rax"
  | store slot => "POP [" ++ toString slot ++ "]"
  | popResult => "POP rax"
  | math op => op.mnemonic
  | arithmetic op => op.keyword
  | comparison op => op.mnemonic
  | output op => op.keyword
  | input => "IN"
  | jump target => "jmp " ++ target.text
  | jumpIfEqual target => "je " ++ target.text
  | call target => "CALL " ++ target.text
  | ret => "ret"
  | halt => "hlt"

/-- The text of an instruction as a line: indented by four spaces. -/
def indented (text : String) : String := "    " ++ text

/-- The line as it is written. -/
def Line.text : Line → String
  | .instruction i => indented i.text
  | .label l => l.text

/-- The numbers that the next branch and the next loop get. -/
structure Numbering where
  branches : Nat := 0
  loops : Nat := 0
deriving DecidableEq, Repr, Inhabited

/-- Lines of text and the numbering to go on with. -/
structure Listing where
  numbering : Numbering := {}
  lines : List String := []
deriving DecidableEq, Repr, Inhabited

namespace Listing

/-- The number of the next branch, and the listing after it is taken. -/
def takeBranch (listing : Listing) : Nat × Listing :=
  let numbering := listing.numbering
  (numbering.branches,
    { listing with numbering := { numbering with branches := numbering.branches + 1 } })

/-- The number of the next loop, and the listing after it is taken. -/
def takeLoop (listing : Listing) : Nat × Listing :=
  let numbering := listing.numbering
  (numbering.loops,
    { listing with numbering := { numbering with loops := numbering.loops + 1 } })

/-- The listing with one more line. -/
def addLine (listing : Listing) (line : String) : Listing :=
  { listing with lines := listing.lines ++ [line] }

/-- The listing with the text of an instruction added. -/
def addInstruction (listing : Listing) (text : String) : Listing :=
  listing.addLine (indented text)

/-- The listing with the text of a label added. -/
def addLabel (listing : Listing) (text : String) : Listing :=
  listing.addLine text

/-- The listing with lines of code added, and the numbering to go on with. -/
def addCode (listing : Listing) (code : List Line) (numbering : Numbering) : Listing :=
  { numbering, lines := listing.lines ++ code.map (·.text) }

/-- The text of a listing; every line ends with a line feed. -/
def text (listing : Listing) : String :=
  String.join (listing.lines.map (· ++ "\n"))

end Listing

end StackCompiler
