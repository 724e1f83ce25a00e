import StackCompiler.Proofs.Program.Code
import StackCompiler.Proofs.Program.Findings

/-!
# The forms of code

What lowering writes has one of a few forms, whatever tree it comes from: code that computes a
value, code of statements, and code of functions.  Statements take the numbers of their branches and
loops from a numbering, and functions follow one another with nothing in between.

Each form comes with the calls in it, in the order of their call instructions.
-/

namespace StackCompiler

/-- A call in code: the function that is called, the slots that are saved, the code of each
argument, and whether the result is pushed in the end. -/
structure CallCode where
  index : Nat
  saved : List Nat
  values : List (List Line)
  asValue : Bool

/-- The number of arguments with which a function is called. -/
def CallCode.arity (call : CallCode) : Nat × Nat :=
  (call.index, call.values.length)

section Forms

variable (entry : Nat)

/-- Code that computes a value.  The arguments of a call come with the calls in them. -/
inductive ValueCode : List CallCode → List Line → Prop where
  | push (value : Binary64) : ValueCode [] [.instruction (.push value)]
  | load (slot : Nat) : ValueCode [] [.instruction (.load slot)]
  | input (slot : Nat) :
      ValueCode [] [.instruction .input, .instruction (.store slot), .instruction (.load slot)]
  | math (op : MathOp) {calls : List CallCode} {operand : List Line}
      (h : ValueCode calls operand) :
      ValueCode calls (operand ++ [.instruction (.math op)])
  | arithmetic (op : ArithmeticOp) {calls calls' : List CallCode} {left right : List Line}
      (hleft : ValueCode calls left) (hright : ValueCode calls' right) :
      ValueCode (calls ++ calls') (left ++ right ++ [.instruction (.arithmetic op)])
  | comparison (op : Comparison) {calls calls' : List CallCode} {left right : List Line}
      (hleft : ValueCode calls left) (hright : ValueCode calls' right) :
      ValueCode (calls ++ calls') (left ++ right ++ [.instruction (.comparison op)])
  | call (index : Nat) (saved : List Nat) {arguments : List (List CallCode × List Line)}
      (harguments : ∀ argument ∈ arguments, ValueCode argument.1 argument.2) :
      ValueCode ((arguments.map (·.1)).flatten ++ [⟨index, saved, arguments.map (·.2), true⟩])
        (Lower.call entry index saved (arguments.map (·.2)).flatten
          ++ [.instruction .pushResult])

/-- Code of statements, with the numbering before and after it. -/
inductive BodyCode : Numbering → List CallCode → List Line → Numbering → Prop where
  | nil (start : Numbering) : BodyCode start [] [] start
  | append {start middle stop : Numbering} {calls calls' : List CallCode}
      {code code' : List Line} (h : BodyCode start calls code middle)
      (h' : BodyCode middle calls' code' stop) :
      BodyCode start (calls ++ calls') (code ++ code') stop
  | assign (start : Numbering) (slot : Nat) {calls : List CallCode} {value : List Line}
      (hvalue : ValueCode entry calls value) :
      BodyCode start calls (value ++ [.instruction (.store slot)]) start
  | call (start : Numbering) (index : Nat) (saved : List Nat)
      {arguments : List (List CallCode × List Line)}
      (harguments : ∀ argument ∈ arguments, ValueCode entry argument.1 argument.2) :
      BodyCode start
        ((arguments.map (·.1)).flatten ++ [⟨index, saved, arguments.map (·.2), false⟩])
        (Lower.call entry index saved (arguments.map (·.2)).flatten) start
  | ret (start : Numbering) {calls : List CallCode} {value : List Line}
      (hvalue : ValueCode entry calls value) :
      BodyCode start calls (value ++ [.instruction .popResult, .instruction .ret]) start
  | input (start : Numbering) (slot : Nat) :
      BodyCode start [] [.instruction .input, .instruction (.store slot)] start
  | output (start : Numbering) (op : OutputOp) {calls : List CallCode} {value : List Line}
      (hvalue : ValueCode entry calls value) :
      BodyCode start calls (value ++ [.instruction (.output op)]) start
  | branch {start middle stop : Numbering} {calls calls' calls'' : List CallCode}
      {test consequence alternative : List Line} (htest : ValueCode entry calls test)
      (hconsequence :
        BodyCode { start with branches := start.branches + 1 } calls' consequence middle)
      (halternative : BodyCode middle calls'' alternative stop) :
      BodyCode start (calls ++ (calls' ++ calls''))
        (Lower.branch start.branches test consequence alternative) stop
  | loop {start stop : Numbering} {calls calls' : List CallCode} {test body : List Line}
      (htest : ValueCode entry calls test)
      (hbody : BodyCode { start with loops := start.loops + 1 } calls' body stop) :
      BodyCode start (calls ++ calls') (Lower.loop start.loops test body) stop

/-- Code of functions, given by their indices and numbers of parameters, with the numbering before
and after it.  A function begins with its label, takes its parameters off the stack, and ends with
a return. -/
inductive FunctionsCode :
    List (Nat × Nat) → Numbering → List CallCode → List Line → Numbering → Prop where
  | nil (start : Numbering) : FunctionsCode [] start [] [] start
  | cons {functions : List (Nat × Nat)} {start middle stop : Numbering} (index : Nat)
      (slots : List Nat) {calls calls' : List CallCode} {body ending code : List Line}
      (hbody : BodyCode entry start calls body middle)
      (hending : ending = [] ∨ ending = [.instruction .ret])
      (hlast : (body ++ ending).getLast? = some (.instruction .ret))
      (hcode : FunctionsCode functions middle calls' code stop) :
      FunctionsCode ((index, slots.length) :: functions) start (calls ++ calls')
        (.label (Lower.target entry index)
          :: slots.reverse.map (fun slot => .instruction (.store slot))
          ++ (body ++ ending) ++ code) stop

/-- Code of a program whose functions other than the entry are the given ones. -/
inductive ProgramCode (functions : List (Nat × Nat)) :
    Numbering → List CallCode → List Line → Numbering → Prop where
  | mk {start middle stop : Numbering} {calls calls' : List CallCode} {code main : List Line}
      (hcode : FunctionsCode entry functions start calls code middle)
      (hmain : BodyCode entry middle calls' main stop) :
      ProgramCode functions start (calls ++ calls')
        (.instruction (.jump .main) :: code ++ .label .main :: main ++ [.instruction .halt]) stop

end Forms

/-! ### The code of a program -/

section Program

variable {vars funcs : SymbolTable} {entry : Nat} {callable : List (Nat × Nat)}

theorem CallCode.arity_mem {arguments : List (List CallCode × List Line)} {index : Nat}
    (saved : List Nat) (asValue : Bool) (hcall : (index, arguments.length) ∈ callable)
    (h : ∀ call ∈ (arguments.map (·.1)).flatten, call.arity ∈ callable) :
  ∀ call ∈ (arguments.map (·.1)).flatten ++ [⟨index, saved, arguments.map (·.2), asValue⟩],
    call.arity ∈ callable
  := by
  rw [List.forall_mem_append, List.forall_mem_singleton, CallCode.arity, List.length_map]
  exact ⟨h, hcall⟩

mutual

/-- The code of an expression computes a value. -/
theorem Expr.valueCode :
  ∀ (e : Expr), (e.shape vars funcs).collect Shape.callAt ⊆ callable →
    ∃ calls, ValueCode entry calls (e.code vars funcs entry)
      ∧ ∀ call ∈ calls, call.arity ∈ callable
  | .number value, _ => ⟨[], .push value, List.forall_mem_nil _⟩
  | .variable _, _ => ⟨[], .load _, List.forall_mem_nil _⟩
  | .input _, _ => ⟨[], .input _, List.forall_mem_nil _⟩
  | .call _ arguments, hcalls => by
      obtain ⟨hcall, hcalls⟩ := Shape.calls_of_call hcalls
      obtain ⟨list, hcodes, hlength, hforms, harities⟩ := Expr.valueCodes arguments hcalls
      rw [← hlength] at hcall
      rw [Expr.code, hcodes]
      exact ⟨_, .call _ _ hforms, CallCode.arity_mem _ _ hcall harities⟩
  | .math op operand, hcalls => by
      obtain ⟨calls, hform, harities⟩ := operand.valueCode hcalls
      exact ⟨calls, .math op hform, harities⟩
  | .arithmetic op left right, hcalls => by
      obtain ⟨hleft, hright⟩ := Shape.calls_of_node hcalls
      obtain ⟨calls, hform, harities⟩ := left.valueCode hleft
      obtain ⟨calls', hform', harities'⟩ := right.valueCode hright
      exact ⟨_, .arithmetic op hform hform', List.forall_mem_append.mpr ⟨harities, harities'⟩⟩
  | .comparison op left right, hcalls => by
      obtain ⟨hleft, hright⟩ := Shape.calls_of_node hcalls
      obtain ⟨calls, hform, harities⟩ := left.valueCode hleft
      obtain ⟨calls', hform', harities'⟩ := right.valueCode hright
      exact ⟨_, .comparison op hform hform', List.forall_mem_append.mpr ⟨harities, harities'⟩⟩

theorem Expr.valueCodes :
  ∀ (es : List Expr), (Shape.chain (Expr.shapes vars funcs es)).collect Shape.callAt ⊆ callable →
    ∃ arguments : List (List CallCode × List Line),
      Expr.codes vars funcs entry es = (arguments.map (·.2)).flatten
        ∧ arguments.length = es.length
        ∧ (∀ argument ∈ arguments, ValueCode entry argument.1 argument.2)
        ∧ ∀ call ∈ (arguments.map (·.1)).flatten, call.arity ∈ callable
  | [], _ => ⟨[], rfl, rfl, List.forall_mem_nil _, List.forall_mem_nil _⟩
  | e :: es, hcalls => by
      obtain ⟨hitem, hnext⟩ := Shape.calls_of_node hcalls
      obtain ⟨calls, hform, harities⟩ := e.valueCode hitem
      obtain ⟨arguments, hcodes, hlength, hforms, harities'⟩ := Expr.valueCodes es hnext
      use (calls, e.code vars funcs entry) :: arguments
      use congrArg (e.code vars funcs entry ++ ·) hcodes, congrArg Nat.succ hlength
      use List.forall_mem_cons.mpr ⟨hform, hforms⟩
      exact List.forall_mem_append.mpr ⟨harities, harities'⟩

end

mutual

/-- The code of a statement has the form of statements. -/
theorem Statement.bodyCode :
  ∀ (s : Statement) (numbering : Numbering),
    (s.shape vars funcs).collect Shape.callAt ⊆ callable →
    ∃ calls, BodyCode entry numbering calls (s.code vars funcs entry numbering).1
        (s.code vars funcs entry numbering).2
      ∧ ∀ call ∈ calls, call.arity ∈ callable
  | .assign _ value, numbering, hcalls => by
      obtain ⟨calls, hform, harities⟩ := value.valueCode (Shape.calls_of_node hcalls).2
      exact ⟨calls, .assign numbering _ hform, harities⟩
  | .branch condition consequence alternative, _, hcalls => by
      obtain ⟨htest, harms⟩ := Shape.calls_of_node hcalls
      obtain ⟨hfirst, hsecond⟩ := Shape.calls_of_node harms
      obtain ⟨calls, hform, harities⟩ := condition.valueCode htest
      obtain ⟨calls', hform', harities'⟩ := Statement.bodyCodes consequence _ hfirst
      obtain ⟨calls'', hform'', harities''⟩ := Statement.bodyCodes alternative _ hsecond
      refine ⟨_, .branch hform hform' hform'', ?_⟩
      rw [List.forall_mem_append, List.forall_mem_append]
      exact ⟨harities, harities', harities''⟩
  | .loop condition body, _, hcalls => by
      obtain ⟨htest, harms⟩ := Shape.calls_of_node hcalls
      obtain ⟨calls, hform, harities⟩ := condition.valueCode htest
      obtain ⟨calls', hform', harities'⟩ :=
        Statement.bodyCodes body _ (Shape.calls_of_node harms).1
      exact ⟨_, .loop hform hform', List.forall_mem_append.mpr ⟨harities, harities'⟩⟩
  | .call _ arguments, numbering, hcalls => by
      obtain ⟨hcall, hcalls⟩ := Shape.calls_of_call hcalls
      obtain ⟨list, hcodes, hlength, hforms, harities⟩ := Expr.valueCodes arguments hcalls
      rw [← hlength] at hcall
      rw [Statement.code, hcodes]
      exact ⟨_, .call numbering _ _ hforms, CallCode.arity_mem _ _ hcall harities⟩
  | .ret value, numbering, hcalls => by
      obtain ⟨calls, hform, harities⟩ := value.valueCode (Shape.calls_of_node hcalls).2
      exact ⟨calls, .ret numbering hform, harities⟩
  | .output op value, numbering, hcalls => by
      obtain ⟨calls, hform, harities⟩ := value.valueCode (Shape.calls_of_node hcalls).2
      exact ⟨calls, .output numbering op hform, harities⟩
  | .input _, numbering, _ => ⟨[], .input numbering _, List.forall_mem_nil _⟩

theorem Statement.bodyCodes :
  ∀ (ss : List Statement) (numbering : Numbering),
    (Shape.chain (Statement.shapes vars funcs ss)).collect Shape.callAt ⊆ callable →
    ∃ calls, BodyCode entry numbering calls (Statement.codes vars funcs entry ss numbering).1
        (Statement.codes vars funcs entry ss numbering).2
      ∧ ∀ call ∈ calls, call.arity ∈ callable
  | [], numbering, _ => ⟨[], .nil numbering, List.forall_mem_nil _⟩
  | s :: ss, numbering, hcalls => by
      obtain ⟨hitem, hnext⟩ := Shape.calls_of_node hcalls
      obtain ⟨calls, hform, harities⟩ := s.bodyCode numbering hitem
      obtain ⟨calls', hform', harities'⟩ := Statement.bodyCodes ss _ hnext
      exact ⟨_, .append hform hform', List.forall_mem_append.mpr ⟨harities, harities'⟩⟩

end

/-- The code of statements that end with a return does so too. -/
theorem Statement.getLast?_codes {ss : List Statement} (numbering : Numbering)
    (h : Statement.endsWithReturn ss) :
  (Statement.codes vars funcs entry ss numbering).1.getLast? = some (.instruction .ret)
  := by
  induction ss generalizing numbering with
  | nil => cases h
  | cons s ss ih =>
    cases ss with
    | nil =>
      cases s <;> cases h
      simp [Statement.codes, Statement.code]
    | cons s' ss =>
      rw [Statement.codes, List.getLast?_append, ih, Option.some_or]
      rwa [Statement.endsWithReturn, List.getLast?_cons_cons] at h

/-- The code of definitions has the form of functions. -/
theorem Definition.functionsCode {ds : List Definition}
    (h : ∀ d ∈ ds,
      (Shape.chain (Statement.shapes vars funcs d.body)).collect Shape.callAt ⊆ callable)
    (numbering : Numbering) :
  ∃ calls, FunctionsCode entry (ds.map (signature funcs)) numbering calls
      (Definition.codes vars funcs entry ds numbering).1
      (Definition.codes vars funcs entry ds numbering).2
    ∧ ∀ call ∈ calls, call.arity ∈ callable
  := by
  induction ds generalizing numbering with
  | nil => exact ⟨[], .nil numbering, List.forall_mem_nil _⟩
  | cons d ds ih =>
    obtain ⟨hd, hds⟩ := List.forall_mem_cons.mp h
    obtain ⟨calls, hform, harities⟩ := Statement.bodyCodes d.body numbering hd
    obtain ⟨calls', hform', harities'⟩ := ih hds (d.code vars funcs entry numbering).2
    have hsignature : d.signature funcs
        = ((funcs.intern d.name).1, (d.parameters.map (variableSlot vars)).length) := by
      rw [List.length_map]
      rfl
    rw [Definition.codes, List.map_cons, hsignature, Definition.code,
      List.append_assoc (_ :: _) (Statement.codes _ _ _ _ _).1]
    refine ⟨_, .cons _ _ hform ?_ ?_ hform', List.forall_mem_append.mpr ⟨harities, harities'⟩⟩
    · split <;> simp
    · split
      · rename_i hends
        rw [List.append_nil]
        apply Statement.getLast?_codes numbering hends
      · simp

/-- The code of a program has the form of one. -/
theorem Definition.programCode_form {first : Definition} {others : List Definition}
    (h : ∀ d ∈ first :: others,
      (Shape.chain (Statement.shapes vars funcs d.body)).collect Shape.callAt ⊆ callable)
    (numbering : Numbering) :
  ∃ calls, ProgramCode (funcs.intern first.name).1 (others.map (signature funcs)) numbering calls
      (Definition.programCode vars funcs first others numbering).1
      (Definition.programCode vars funcs first others numbering).2
    ∧ ∀ call ∈ calls, call.arity ∈ callable
  := by
  obtain ⟨hfirst, hothers⟩ := List.forall_mem_cons.mp h
  obtain ⟨calls, hform, harities⟩ := Definition.functionsCode hothers numbering
  obtain ⟨calls', hform', harities'⟩ := Statement.bodyCodes first.body _ hfirst
  exact ⟨_, .mk hform hform', List.forall_mem_append.mpr ⟨harities, harities'⟩⟩

end Program

end StackCompiler
