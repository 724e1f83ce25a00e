import Mathlib.Logic.Function.Basic
import StackCompiler.Tree.Unfolding

/-!
# What a tree means

An interpreter for the unfolding of a tree, which follows the tree itself and knows of no code.
Every variable has one slot for the whole program.  A call remembers the slots of all variables that
its arguments mention, computes the arguments from left to right, gives them to the parameters, runs
the body of the function up to a return or to its end, and restores the slots it remembered; its
value is the result that the last return left.

The operations on values are given from outside, and nothing is assumed about them.  The interpreter
takes fuel, and gives no store if the fuel does not last, the input is used up, or the tree is not
that of a program.
-/

namespace StackCompiler

/-- Values and the operations on them. -/
structure Arithmetic (V : Type) where
  number : Binary64 → V
  math : MathOp → V → V
  arithmetic : ArithmeticOp → V → V → V
  comparison : Comparison → V → V → V
  equal : V → V → Bool

namespace Arithmetic

/-- Whether a condition with the given value fails. -/
def isZero {V : Type} (A : Arithmetic V) (value : V) : Bool :=
  A.equal value (A.number (.ofNat 0))

end Arithmetic

/-- The slots of all variables, the result register, the input that is left and the output so
far. -/
structure Store (V : Type) where
  slots : Nat → V
  result : V
  input : List V
  output : List V

namespace Store

variable {V : Type}

/-- The store with a value in a slot. -/
def set (store : Store V) (slot : Nat) (value : V) : Store V :=
  { store with slots := Function.update store.slots slot value }

/-- The next value of the input and the store without it. -/
def read? (store : Store V) : Option (V × Store V) :=
  match store.input with
  | [] => none
  | value :: input => some (value, { store with input })

/-- The store with one more value in its output. -/
def write (store : Store V) (value : V) : Store V :=
  { store with output := store.output ++ [value] }

/-- The store with values in the slots of parameters.  A parameter that is repeated gets the first
of its values. -/
def bind (store : Store V) (parameters : List Nat) (values : List V) : Store V :=
  (parameters.zip values).foldr (fun pair store => store.set pair.1 pair.2) store

/-- The store with the given slots as they were before. -/
def restore (store : Store V) (saved : List Nat) (before : Nat → V) : Store V :=
  { store with slots := fun slot => if slot ∈ saved then before slot else store.slots slot }

theorem restore_nil (store : Store V) (before : Nat → V) :
  store.restore [] before = store
  := by
  simp [restore]

/-- Slots can be restored one after the other. -/
theorem restore_cons (store : Store V) (slot : Nat) (saved : List Nat) (before : Nat → V) :
  store.restore (slot :: saved) before = (store.set slot (before slot)).restore saved before
  := by
  simp only [restore, set, mk.injEq, and_true]
  funext other
  by_cases hmem : other ∈ saved
  · simp [hmem]
  · by_cases heq : other = slot
    · simp [heq]
    · simp [hmem, heq]

theorem restore_reverse (store : Store V) (saved : List Nat) (before : Nat → V) :
  store.restore saved.reverse before = store.restore saved before
  := by
  simp only [restore, List.mem_reverse]

end Store

/-- How statements end: control goes on after them, or it leaves the function. -/
inductive Flow where
  | next
  | returned
deriving DecidableEq, Repr

namespace Unfolding

/-- The slot of a variable. -/
def slot? : Unfolding → Option Nat
  | .node _ (.variable index) _ _ => some index
  | _ => none

/-- The body and the parameters of a function in a chain of definitions. -/
def function? : Unfolding → Nat → Option (Unfolding × Unfolding)
  | .node _ (.function index) (.node _ _ body parameters) next, wanted =>
    if index = wanted then some (body, parameters) else next.function? wanted
  | _, _ => none

end Unfolding

namespace Interpret

variable {V : Type} (A : Arithmetic V) (program : Unfolding)

mutual

/-- The value of an expression and the store after it. -/
def expression : (fuel : Nat) → Unfolding → Store V → Option (V × Store V)
  | fuel + 1, .node _ kind left right, store =>
    match kind with
    | .number value => some (A.number value, store)
    | .variable index => some (store.slots index, store)
    | .unary .input => do
      let slot ← right.slot?
      let (value, store) ← store.read?
      return (value, store.set slot value)
    | .unary (.math op) => do
      let (value, store) ← expression fuel right store
      return (A.math op value, store)
    | .binary (.arithmetic op) => do
      let (first, store) ← expression fuel left store
      let (second, store) ← expression fuel right store
      return (A.arithmetic op first second, store)
    | .binary (.comparison op) => do
      let (first, store) ← expression fuel left store
      let (second, store) ← expression fuel right store
      return (A.comparison op first second, store)
    | .function index => do
      let store ← call fuel index right store
      return (store.result, store)
    | _ => none
  | _, _, _ => none

/-- The values of a chain of expressions, the left one first, and the store after them. -/
def expressions : (fuel : Nat) → Unfolding → Store V → Option (List V × Store V)
  | 0, _, _ => none
  | fuel + 1, .node _ _ item next, store => do
    let (value, store) ← expression fuel item store
    let (values, store) ← expressions fuel next store
    return (value :: values, store)
  | _, _, store => some ([], store)

/-- The store after a call. -/
def call : (fuel : Nat) → (index : Nat) → (arguments : Unfolding) → Store V → Option (Store V)
  | 0, _, _, _ => none
  | fuel + 1, index, arguments, before => do
    let (body, parameters) ← program.function? index
    let (values, store) ← expressions fuel arguments before
    let (_, store) ← statements fuel body
      (store.bind (parameters.items.filterMap Unfolding.slot?) values)
    return store.restore arguments.mentioned before.slots

/-- How a statement ends and the store after it. -/
def statement : (fuel : Nat) → Unfolding → Store V → Option (Flow × Store V)
  | fuel + 1, .node id kind left right, store =>
    match kind with
    | .binary .assign => do
      let slot ← left.slot?
      let (value, store) ← expression fuel right store
      return (.next, store.set slot value)
    | .function index => do
      let store ← call fuel index right store
      return (.next, store)
    | .unary .ret => do
      let (value, store) ← expression fuel right store
      return (.returned, { store with result := value })
    | .unary .input => do
      let slot ← right.slot?
      let (value, store) ← store.read?
      return (.next, store.set slot value)
    | .unary (.output _) => do
      let (value, store) ← expression fuel right store
      return (.next, store.write value)
    | .control op =>
      match right with
      | .node _ _ first second => do
        let (value, store) ← expression fuel left store
        match op with
        | .branch => statements fuel (if A.isZero value then second else first) store
        | .loop =>
          if A.isZero value then return (.next, store)
          else
            let (flow, store) ← statements fuel first store
            match flow with
            | .next => statement fuel (.node id kind left right) store
            | .returned => return (.returned, store)
      | _ => none
    | _ => none
  | _, _, _ => none

/-- How a chain of statements ends and the store after it. -/
def statements : (fuel : Nat) → Unfolding → Store V → Option (Flow × Store V)
  | 0, _, _ => none
  | fuel + 1, .node _ _ item next, store => do
    let (flow, store) ← statement fuel item store
    match flow with
    | .next => statements fuel next store
    | .returned => return (.returned, store)
  | _, _, store => some (.next, store)

end

/-- The store after a whole program, which runs the body of its first definition. -/
def run (fuel : Nat) (store : Store V) : Option (Store V) :=
  match program with
  | .node _ (.function _) (.node _ _ body _) _ => do
    let (_, store) ← statements A program fuel body store
    return store
  | _ => none

end Interpret

end StackCompiler
