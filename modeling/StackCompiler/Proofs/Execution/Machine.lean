import Mathlib.Data.List.Basic
import StackCompiler.Assembly.Basic
import StackCompiler.Proofs.Execution.Interpreter

/-!
# The stack machine

The machine that code is written for.  It has a stack of values, a store, the lines still ahead, and
for every call that is not finished the lines after it.  A label does nothing; a jump goes on after
the line with its label.  The machine halts at `hlt`, and at a `ret` that no call belongs to.
-/

namespace StackCompiler

/-- The lines after a label; the last line with the label counts. -/
def linesAfter (label : Label) : List Line → Option (List Line)
  | [] => none
  | line :: lines =>
    match linesAfter label lines with
    | some found => some found
    | none => if line = .label label then some lines else none

/-- A state of the machine: the lines ahead, the stack with its top first, the lines to go back to
with the latest call first, and the store. -/
structure Machine (V : Type) where
  ahead : List Line
  stack : List V
  callers : List (List Line)
  store : Store V

namespace Machine

/-- What one line of code leads to: another state, an end with the stack and the store that are
left, or nothing. -/
inductive Step (V : Type) where
  | next (machine : Machine V)
  | halted (stack : List V) (store : Store V)
  | stuck

variable {V : Type} (A : Arithmetic V) (code : List Line)

/-- The machine after it jumps to a label. -/
def goTo (machine : Machine V) (label : Label) : Step V :=
  match linesAfter label code with
  | some ahead => .next { machine with ahead }
  | none => .stuck

/-- What an instruction leads to; `machine` has the lines after the instruction ahead. -/
def perform (instruction : Instruction) (machine : Machine V) : Step V :=
  match instruction, machine.stack with
  | .push value, stack => .next { machine with stack := A.number value :: stack }
  | .load slot, stack => .next { machine with stack := machine.store.slots slot :: stack }
  | .pushResult, stack => .next { machine with stack := machine.store.result :: stack }
  | .store slot, value :: stack =>
    .next { machine with stack, store := machine.store.set slot value }
  | .popResult, value :: stack =>
    .next { machine with stack, store := { machine.store with result := value } }
  | .math op, value :: stack => .next { machine with stack := A.math op value :: stack }
  | .arithmetic op, second :: first :: stack =>
    .next { machine with stack := A.arithmetic op first second :: stack }
  | .comparison op, second :: first :: stack =>
    .next { machine with stack := A.comparison op first second :: stack }
  | .output _, value :: stack => .next { machine with stack, store := machine.store.write value }
  | .input, stack =>
    match machine.store.read? with
    | some (value, store) => .next { machine with stack := value :: stack, store }
    | none => .stuck
  | .jump target, _ => machine.goTo code target
  | .jumpIfEqual target, second :: first :: stack =>
    if A.equal first second then { machine with stack }.goTo code target
    else .next { machine with stack }
  | .call target, _ =>
    { machine with callers := machine.ahead :: machine.callers }.goTo code target
  | .ret, _ =>
    match machine.callers with
    | ahead :: callers => .next { machine with ahead, callers }
    | [] => .halted machine.stack machine.store
  | .halt, _ => .halted machine.stack machine.store
  | _, _ => .stuck

/-- What the next line leads to. -/
def step (machine : Machine V) : Step V :=
  match machine.ahead with
  | .instruction instruction :: ahead => perform A code instruction { machine with ahead }
  | .label _ :: ahead => .next { machine with ahead }
  | [] => .stuck

/-- The stack and the store with which the machine halts, if it does so within the given number of
lines. -/
def run : (fuel : Nat) → Machine V → Option (List V × Store V)
  | 0, _ => none
  | fuel + 1, machine =>
    match machine.step A code with
    | .next machine => run fuel machine
    | .halted stack store => some (stack, store)
    | .stuck => none

/-- The machine before the first line of its code. -/
def start (store : Store V) : Machine V :=
  { ahead := code, stack := [], callers := [], store }

end Machine

/-! ### Halting -/

namespace Machine

variable {V : Type} {A : Arithmetic V} {code : List Line} {final : List V × Store V}

/-- If there is input, then its first value is pushed. -/
theorem perform_input {value : V} {store store' : Store V} (h : store.read? = some (value, store'))
    (ahead : List Line) (stack : List V) (callers : List (List Line)) :
  perform A code .input ⟨ahead, stack, callers, store⟩
    = .next ⟨ahead, value :: stack, callers, store'⟩
  := by
  rw [perform]
  dsimp only
  rw [h]

/-- The machine halts with the given stack and store. -/
def Halts (A : Arithmetic V) (code : List Line) (machine : Machine V) (final : List V × Store V) :
    Prop :=
  ∃ fuel, run A code fuel machine = some final

/-- A machine halts if it does so after one step. -/
theorem Halts.of_step {machine next : Machine V} (hstep : machine.step A code = .next next)
    (h : Halts A code next final) :
  Halts A code machine final
  := by
  obtain ⟨fuel, hrun⟩ := h
  use fuel + 1
  rw [run, hstep]
  apply hrun

/-- A machine that halts in one step halts. -/
theorem Halts.of_halted {machine : Machine V} {stack : List V} {store : Store V}
    (hstep : machine.step A code = .halted stack store) :
  Halts A code machine (stack, store)
  := by
  use 1
  rw [run, hstep]

variable {ahead : List Line} {stack : List V} {callers : List (List Line)} {store : Store V}

/-- A label may be left out. -/
theorem halts_label_iff {label : Label} :
  Halts A code ⟨.label label :: ahead, stack, callers, store⟩ final
    ↔ Halts A code ⟨ahead, stack, callers, store⟩ final
  := by
  constructor
  · rintro ⟨fuel, hrun⟩
    cases fuel with
    | zero => cases hrun
    | succ fuel => exact ⟨fuel, hrun⟩
  · apply Halts.of_step rfl

/-- Where a return leads does not depend on the lines after it. -/
theorem Halts.of_ret (h : Halts A code ⟨[.instruction .ret], stack, callers, store⟩ final) :
  Halts A code ⟨.instruction .ret :: ahead, stack, callers, store⟩ final
  := by
  obtain ⟨fuel, hrun⟩ := h
  use fuel
  cases fuel with
  | zero => cases hrun
  | succ fuel => cases callers <;> exact hrun

end Machine

end StackCompiler
