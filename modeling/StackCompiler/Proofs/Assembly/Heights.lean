import StackCompiler.Proofs.Assembly.Labels
import StackCompiler.Proofs.Assembly.Reading
import StackCompiler.Proofs.Execution.Functions

/-!
# Stack discipline

Every line of code can be given the height of the stack before it, counted from the frame of the
function it belongs to: the arguments at the label of a function, nothing at the label of the entry
function, and after each line what the line leaves.  The heights fit together along all jumps, no
line takes more than there is, and nothing is left where a function returns or the program halts.
-/

namespace StackCompiler

/-! ### What a line does to the stack -/

namespace Instruction

/-- By how much an instruction changes the height of the stack, given the number of parameters that
stand on the stack at a label. -/
def effect (arity : Label → Nat) : Instruction → Int
  | push _ | load _ | pushResult | input => 1
  | store _ | popResult | output _ => -1
  | arithmetic _ | comparison _ => -1
  | math _ => 0
  | jumpIfEqual _ => -2
  | call target => -(arity target)
  | jump _ | ret | halt => 0

/-- The number of values that an instruction takes off the stack. -/
def needs (arity : Label → Nat) : Instruction → Nat
  | push _ | load _ | pushResult | input => 0
  | store _ | popResult | output _ | math _ => 1
  | arithmetic _ | comparison _ | jumpIfEqual _ => 2
  | call target => arity target
  | jump _ | ret | halt => 0

/-- Whether the next line can come after an instruction. -/
def goesOn : Instruction → Bool
  | jump _ | ret | halt => false
  | _ => true

/-- The label that an instruction jumps to, within the same function. -/
def jumpTarget? : Instruction → Option Label
  | jump target | jumpIfEqual target => some target
  | _ => none

/-- Whether an instruction leaves a function or ends the program. -/
def leaves : Instruction → Bool
  | ret | halt => true
  | _ => false

end Instruction

/-- The number of values at a label: those of the parameters at the label of a function, and none at
any other. -/
def labelHeight (parameters : Nat → Nat) : Label → Nat
  | .function index => parameters index
  | _ => 0

/-- The heights of the stack before each line fit together. -/
structure StackDiscipline (parameters : Nat → Nat) (code : List Line) (height : Nat → Nat) :
    Prop where
  main : ∀ i : Nat, code[i]? = some (.label .main) → height i = 0
  function : ∀ i index : Nat, code[i]? = some (.label (.function index)) →
    height i = parameters index
  label : ∀ (i : Nat) (label : Label), code[i]? = some (.label label) → height (i + 1) = height i
  enough : ∀ (i : Nat) (instruction : Instruction), code[i]? = some (.instruction instruction) →
    instruction.needs (labelHeight parameters) ≤ height i
  next : ∀ (i : Nat) (instruction : Instruction), code[i]? = some (.instruction instruction) →
    instruction.goesOn →
    (height (i + 1) : Int) = height i + instruction.effect (labelHeight parameters)
  target : ∀ (i : Nat) (instruction : Instruction) (target : Label),
    code[i]? = some (.instruction instruction) → instruction.jumpTarget? = some target →
    ∃ j : Nat, code[j]? = some (.label target)
  jump : ∀ (i j : Nat) (instruction : Instruction) (target : Label),
    code[i]? = some (.instruction instruction) → instruction.jumpTarget? = some target →
    code[j]? = some (.label target) →
    (height j : Int) = height i + instruction.effect (labelHeight parameters)
  leave : ∀ (i : Nat) (instruction : Instruction), code[i]? = some (.instruction instruction) →
    instruction.leaves → height i = 0

/-! ### Heights along straight code -/

/-- An instruction fits the heights before it and before the next line; any next height will do if
the instruction does not go on. -/
structure Instruction.Fits (parameters : Nat → Nat) (i : Instruction) (before after : Nat) :
    Prop where
  needs : i.needs (labelHeight parameters) ≤ before
  next : i.goesOn → (after : Int) = before + i.effect (labelHeight parameters)
  jump : ∀ target, i.jumpTarget? = some target →
    (labelHeight parameters target : Int) = before + i.effect (labelHeight parameters)
  leave : i.leaves → before = 0

/-- A line fits the heights before it and before the next line. -/
def Line.Fits (parameters : Nat → Nat) : Line → Nat → Nat → Prop
  | .label l, before, after => before = labelHeight parameters l ∧ after = before
  | .instruction i, before, after => i.Fits parameters before after

/-- Heights that fit lead from the first to the last of the given ones. -/
inductive Balanced (parameters : Nat → Nat) : List Line → Nat → Nat → Prop where
  | nil (height : Nat) : Balanced parameters [] height height
  | cons {line : Line} {code : List Line} {start next stop : Nat}
      (hline : line.Fits parameters start next) (h : Balanced parameters code next stop) :
      Balanced parameters (line :: code) start stop

namespace Balanced

variable {parameters : Nat → Nat} {code code' : List Line} {start middle stop : Nat}

/-- Code after code starts at the height where the first one stops. -/
theorem append (h : Balanced parameters code start middle)
    (h' : Balanced parameters code' middle stop) :
  Balanced parameters (code ++ code') start stop
  := by
  induction h with
  | nil height => apply h'
  | cons hline h ih => apply Balanced.cons hline (ih h')

/-- At a label the height is that of the label. -/
theorem label (label : Label)
    (h : Balanced parameters code (labelHeight parameters label) stop) :
  Balanced parameters (.label label :: code) (labelHeight parameters label) stop
  := .cons ⟨rfl, rfl⟩ h

/-- An instruction alone goes from the height before it to the height after it. -/
theorem instruction {i : Instruction} (h : i.Fits parameters start stop) :
  Balanced parameters [.instruction i] start stop
  := .cons h (.nil stop)

/-- A line that always goes on. -/
theorem single (i : Instruction) (hgoesOn : i.goesOn) (hjump : i.jumpTarget? = none)
    (hneeds : i.needs (labelHeight parameters) ≤ start)
    (hstop : (stop : Int) = start + i.effect (labelHeight parameters)) :
  Balanced parameters [.instruction i] start stop
  := by
  apply instruction
  constructor
  · apply hneeds
  · intro _
    apply hstop
  · intro target htarget
    rw [hjump] at htarget
    cases htarget
  · intro hleaves
    cases i <;> cases hleaves <;> cases hgoesOn

/-- Each load makes the stack higher by one. -/
theorem loads (saved : List Nat) (height : Nat) :
  Balanced parameters (saved.map fun slot => .instruction (.load slot)) height
    (height + saved.length)
  := by
  induction saved generalizing height with
  | nil => apply Balanced.nil
  | cons slot saved ih =>
    have hfirst : Balanced parameters [.instruction (.load slot)] height (height + 1) :=
      single _ rfl rfl (Nat.zero_le _) rfl
    rw [List.length_cons, Nat.add_comm saved.length, ← Nat.add_assoc]
    apply hfirst.append (ih (height + 1))

/-- Each store makes the stack lower by one. -/
theorem stores (slots : List Nat) (height : Nat) :
  Balanced parameters (slots.map fun slot => .instruction (.store slot)) (height + slots.length)
    height
  := by
  induction slots with
  | nil => apply Balanced.nil
  | cons slot slots ih =>
    have hfirst : Balanced parameters [.instruction (.store slot)] (height + (slots.length + 1))
        (height + slots.length) := by
      apply single _ rfl rfl
      · simp only [Instruction.needs]
        omega
      · simp only [Instruction.effect]
        omega
    apply hfirst.append ih

/-- An input that is stored leaves the height as it was. -/
theorem input (slot height : Nat) :
  Balanced parameters [.instruction .input, .instruction (.store slot)] height height
  := by
  have hinput : Balanced parameters [.instruction .input] height (height + 1) :=
    single _ rfl rfl (Nat.zero_le _) rfl
  apply hinput.append (stores [slot] height)

/-- A call leaves the stack as it was before its arguments. -/
theorem call {entry index count height : Nat} {saved : List Nat} {arguments : List Line}
    (hcount : labelHeight parameters (Lower.target entry index) = count)
    (harguments : ∀ height, Balanced parameters arguments height (height + count)) :
  Balanced parameters (Lower.call entry index saved arguments) height height
  := by
  have hcall : Balanced parameters [.instruction (.call (Lower.target entry index))]
      (height + saved.length + count) (height + saved.length) := by
    apply single _ rfl rfl
    · simp only [Instruction.needs, hcount]
      omega
    · simp only [Instruction.effect, hcount]
      omega
  have hrestore := @stores parameters saved.reverse height
  rw [List.length_reverse] at hrestore
  rw [Lower.call]
  apply ((loads saved height).append (harguments _)).append
  apply hcall.append hrestore

/-- A condition is compared with zero. -/
theorem test {label : Label} (h : labelHeight parameters label = 0) :
  Balanced parameters [.instruction (.push (.ofNat 0)), .instruction (.jumpIfEqual label)] 1 0
  := by
  have hpush : Balanced parameters [.instruction (.push (.ofNat 0))] 1 2 :=
    single _ rfl rfl (Nat.zero_le _) rfl
  apply hpush.append
  apply instruction
  constructor
  · apply Nat.le_refl
  · intro _
    rfl
  · intro target htarget
    cases htarget
    rw [h]
    rfl
  · intro hleaves
    cases hleaves

/-- After a jump there may be any height, since control does not come there. -/
theorem jump {label : Label} (h : labelHeight parameters label = 0) (stop : Nat) :
  Balanced parameters [.instruction (.jump label)] 0 stop
  := by
  apply instruction
  constructor
  · apply Nat.zero_le
  · intro hgoesOn
    cases hgoesOn
  · intro target htarget
    cases htarget
    rw [h]
    rfl
  · intro hleaves
    cases hleaves

/-- Any height will do after a return or a halt. -/
theorem leave {i : Instruction} (h : i.leaves) (stop : Nat) :
  Balanced parameters [.instruction i] 0 stop
  := by
  apply instruction
  constructor
  · cases i <;> cases h <;> rfl
  · intro hgoesOn
    cases i <;> cases h <;> cases hgoesOn
  · intro target htarget
    cases i <;> cases h <;> cases htarget
  · intro _
    rfl

/-- After a return there may be any height, since control does not come there. -/
theorem ret {code : List Line} (h : Balanced parameters code 0 1) (stop : Nat) :
  Balanced parameters (code ++ [.instruction .popResult, .instruction .ret]) 0 stop
  := by
  have hpop : Balanced parameters [.instruction .popResult] 1 0 :=
    single _ rfl rfl (Nat.le_refl _) rfl
  apply h.append
  apply hpop.append (leave rfl stop)

/-- A branch leaves the stack empty if its parts do so and its condition leaves one value. -/
theorem branch {number : Nat} {condition consequence alternative : List Line}
    (hcondition : Balanced parameters condition 0 1)
    (hconsequence : Balanced parameters consequence 0 0)
    (halternative : Balanced parameters alternative 0 0) :
  Balanced parameters (Lower.branch number condition consequence alternative) 0 0
  := by
  have hend : Balanced parameters [.label (.branchTrue number)] 0 0 :=
    .label (.branchTrue number) (.nil 0)
  have hsecond : Balanced parameters
      (.instruction (.jump (.branchTrue number)) :: .label (.branchFalse number)
        :: alternative) 0 0 :=
    (jump rfl 0).append (.label (.branchFalse number) halternative)
  have hfirst : Balanced parameters
      (.instruction (.push (.ofNat 0)) :: .instruction (.jumpIfEqual (.branchFalse number))
        :: consequence) 1 0 :=
    (test rfl).append hconsequence
  rw [Lower.branch]
  apply ((hcondition.append hfirst).append hsecond).append hend

/-- A loop leaves the stack empty if its body does so and its condition leaves one value. -/
theorem loop {number : Nat} {condition body : List Line}
    (hcondition : Balanced parameters condition 0 1) (hbody : Balanced parameters body 0 0) :
  Balanced parameters (Lower.loop number condition body) 0 0
  := by
  have hend : Balanced parameters
      [.instruction (.jump (.loopTrue number)), .label (.loopFalse number)] 0 0 :=
    (jump rfl 0).append (.label (.loopFalse number) (.nil 0))
  have hturn : Balanced parameters
      (.instruction (.push (.ofNat 0)) :: .instruction (.jumpIfEqual (.loopFalse number))
        :: body) 1 0 :=
    (test rfl).append hbody
  rw [Lower.loop]
  apply (Balanced.label (.loopTrue number) (hcondition.append hturn)).append hend

/-- Any height will do after code that ends with a return or a halt. -/
theorem of_leaves {i : Instruction} (h : Balanced parameters code start stop)
    (hlast : code.getLast? = some (.instruction i)) (hleaves : i.leaves) (stop' : Nat) :
  Balanced parameters code start stop'
  := by
  induction h with
  | nil height => cases hlast
  | @cons line code start next stop hline h ih =>
    cases code with
    | nil =>
      cases hlast
      rw [hline.leave hleaves]
      apply leave hleaves
    | cons line' code =>
      rw [List.getLast?_cons_cons] at hlast
      apply Balanced.cons hline (ih hlast)

/-- Each argument leaves one value. -/
theorem arguments {arguments : List (List CallCode × List Line)}
    (h : ∀ argument ∈ arguments, ∀ height, Balanced parameters argument.2 height (height + 1))
    (height : Nat) :
  Balanced parameters (arguments.map (·.2)).flatten height (height + arguments.length)
  := by
  induction arguments generalizing height with
  | nil => apply Balanced.nil
  | cons argument arguments ih =>
    obtain ⟨hfirst, hothers⟩ := List.forall_mem_cons.mp h
    have hrest := ih hothers (height + 1)
    rw [Nat.add_assoc, Nat.add_comm 1] at hrest
    apply (hfirst height).append hrest

end Balanced

section Forms

variable {parameters : Nat → Nat} {entry : Nat} {functions : List (Nat × Nat)}
  {start stop : Numbering} {calls : List CallCode} {code : List Line}

/-- Every call finds as many values at the label of its function as it has arguments. -/
def Arities (parameters : Nat → Nat) (entry : Nat) (calls : List CallCode) : Prop :=
  ∀ call ∈ calls, labelHeight parameters (Lower.target entry call.index) = call.values.length

/-- The calls of both parts have the right numbers of arguments. -/
theorem Arities.of_append {calls calls' : List CallCode}
    (h : Arities parameters entry (calls ++ calls')) :
  Arities parameters entry calls ∧ Arities parameters entry calls'
  := List.forall_mem_append.mp h

/-- A call has the right number of arguments, and so have the calls in its arguments. -/
theorem Arities.of_call {arguments : List (List CallCode × List Line)} {index : Nat}
    {saved : List Nat} {asValue : Bool}
    (h : Arities parameters entry
      ((arguments.map (·.1)).flatten ++ [⟨index, saved, arguments.map (·.2), asValue⟩])) :
  labelHeight parameters (Lower.target entry index) = arguments.length
    ∧ ∀ argument ∈ arguments, Arities parameters entry argument.1
  := by
  obtain ⟨harguments, hcall⟩ := h.of_append
  constructor
  · rw [← List.length_map]
    apply hcall _ (List.mem_singleton_self _)
  · intro argument hargument call hmem
    apply harguments
    apply List.mem_flatten_of_mem (List.mem_map_of_mem hargument) hmem

/-- The code of a value leaves one value more. -/
theorem ValueCode.balanced (h : ValueCode entry calls code)
    (hcalls : Arities parameters entry calls) (height : Nat) :
  Balanced parameters code height (height + 1)
  := by
  induction h generalizing height with
  | push value => exact .single _ rfl rfl (Nat.zero_le _) rfl
  | load slot => exact .single _ rfl rfl (Nat.zero_le _) rfl
  | input slot =>
    apply (Balanced.input _ height).append
    exact .single _ rfl rfl (Nat.zero_le _) rfl
  | math op h ih =>
    apply (ih hcalls height).append
    exact .single _ rfl rfl (Nat.le_add_left _ _) (by simp [Instruction.effect])
  | arithmetic op hleft hright ihl ihr =>
    obtain ⟨hfirst, hsecond⟩ := hcalls.of_append
    apply ((ihl hfirst height).append (ihr hsecond (height + 1))).append
    exact .single _ rfl rfl (Nat.le_add_left _ _) (by simp [Instruction.effect])
  | comparison op hleft hright ihl ihr =>
    obtain ⟨hfirst, hsecond⟩ := hcalls.of_append
    apply ((ihl hfirst height).append (ihr hsecond (height + 1))).append
    exact .single _ rfl rfl (Nat.le_add_left _ _) (by simp [Instruction.effect])
  | call index saved harguments ih =>
    obtain ⟨hcall, hcalls⟩ := hcalls.of_call
    apply (Balanced.call hcall _).append
    · exact .single _ rfl rfl (Nat.zero_le _) rfl
    · apply Balanced.arguments
      intro argument hargument
      apply ih argument hargument (hcalls argument hargument)

/-- The code of statements leaves the stack empty. -/
theorem BodyCode.balanced (h : BodyCode entry start calls code stop)
    (hcalls : Arities parameters entry calls) :
  Balanced parameters code 0 0
  := by
  induction h with
  | nil start => apply Balanced.nil
  | append h h' ih ih' =>
    obtain ⟨hfirst, hsecond⟩ := hcalls.of_append
    apply (ih hfirst).append (ih' hsecond)
  | assign start slot hvalue => apply (hvalue.balanced hcalls 0).append (Balanced.stores [slot] 0)
  | call start index saved harguments =>
    obtain ⟨hcall, hcalls⟩ := hcalls.of_call
    apply Balanced.call hcall
    apply Balanced.arguments
    intro argument hargument
    apply (harguments argument hargument).balanced (hcalls argument hargument)
  | ret start hvalue => apply (hvalue.balanced hcalls 0).ret
  | input start slot => apply Balanced.input
  | output start op hvalue =>
    apply (hvalue.balanced hcalls 0).append
    exact .single _ rfl rfl (Nat.le_refl _) rfl
  | branch htest hconsequence halternative ih ih' =>
    obtain ⟨hcondition, harms⟩ := hcalls.of_append
    obtain ⟨hfirst, hsecond⟩ := harms.of_append
    apply Balanced.branch (htest.balanced hcondition 0) (ih hfirst) (ih' hsecond)
  | loop htest hbody ih =>
    obtain ⟨hcondition, hturn⟩ := hcalls.of_append
    apply Balanced.loop (htest.balanced hcondition 0) (ih hturn)

/-- The code of a function takes the parameters off the stack, and any height will do after it. -/
theorem FunctionsCode.balanced (h : FunctionsCode entry functions start calls code stop)
    (hcalls : Arities parameters entry calls)
    (hfunctions : ∀ f ∈ functions, labelHeight parameters (Lower.target entry f.1) = f.2)
    (after : Nat) :
  ∃ before, Balanced parameters code before after
  := by
  induction h with
  | nil start => exact ⟨after, .nil after⟩
  | @cons functions start middle stop index slots calls calls' body ending code hbody hending hlast
      hcode ih =>
    obtain ⟨hfirst, hcalls⟩ := hcalls.of_append
    obtain ⟨hlabel, hothers⟩ := List.forall_mem_cons.mp hfunctions
    obtain ⟨next, hnext⟩ := ih hcalls hothers
    have hstores := @Balanced.stores parameters slots.reverse 0
    rw [List.length_reverse, Nat.zero_add] at hstores
    have hbody' : Balanced parameters (body ++ ending) 0 0 := by
      apply (hbody.balanced hfirst).append
      rcases hending with rfl | rfl
      · apply Balanced.nil
      · apply Balanced.leave rfl
    use labelHeight parameters (Lower.target entry index)
    apply Balanced.append _ hnext
    apply Balanced.append (Balanced.label _ _) (hbody'.of_leaves hlast rfl next)
    rw [hlabel]
    apply hstores

/-- The code of a program starts and ends with an empty stack. -/
theorem ProgramCode.balanced (h : ProgramCode entry functions start calls code stop)
    (hcalls : Arities parameters entry calls)
    (hfunctions : ∀ f ∈ functions, labelHeight parameters (Lower.target entry f.1) = f.2) :
  Balanced parameters code 0 0
  := by
  cases h with
  | mk hcode hmain =>
    obtain ⟨hfirst, hsecond⟩ := hcalls.of_append
    obtain ⟨height, hcode⟩ := hcode.balanced hfirst hfunctions 0
    apply (((Balanced.jump rfl height).append hcode).append
      (.label .main (hmain.balanced hsecond))).append
    apply Balanced.leave rfl

end Forms

/-! ### Targets of jumps -/

/-- The labels that the code jumps to. -/
def jumpTargets (code : List Line) : List Label :=
  code.filterMap fun
    | .instruction i => i.jumpTarget?
    | .label _ => none

/-- The jumps of one piece of code come before those of the next one. -/
@[simp]
theorem jumpTargets_append (code code' : List Line) :
  jumpTargets (code ++ code') = jumpTargets code ++ jumpTargets code'
  := List.filterMap_append

@[simp]
theorem jumpTargets_label (label : Label) (code : List Line) :
  jumpTargets (.label label :: code) = jumpTargets code
  := rfl

@[simp]
theorem jumpTargets_nil :
  jumpTargets [] = []
  := rfl

@[simp]
theorem jumpTargets_jump (label : Label) (code : List Line) :
  jumpTargets (.instruction (.jump label) :: code) = label :: jumpTargets code
  := rfl

@[simp]
theorem jumpTargets_jumpIfEqual (label : Label) (code : List Line) :
  jumpTargets (.instruction (.jumpIfEqual label) :: code) = label :: jumpTargets code
  := rfl

@[simp]
theorem jumpTargets_push (value : Binary64) (code : List Line) :
  jumpTargets (.instruction (.push value) :: code) = jumpTargets code
  := rfl

@[simp]
theorem jumpTargets_map_load (slots : List Nat) :
  jumpTargets (slots.map fun slot => .instruction (.load slot)) = []
  := by
  induction slots with
  | nil => rfl
  | cons slot slots ih => apply ih

@[simp]
theorem jumpTargets_map_store (slots : List Nat) :
  jumpTargets (slots.map fun slot => .instruction (.store slot)) = []
  := by
  induction slots with
  | nil => rfl
  | cons slot slots ih => apply ih

/-- Arguments without jumps make code without jumps. -/
theorem jumpTargets_arguments {arguments : List (List CallCode × List Line)}
    (h : ∀ argument ∈ arguments, jumpTargets argument.2 = []) :
  jumpTargets (arguments.map (·.2)).flatten = []
  := by
  induction arguments with
  | nil => rfl
  | cons argument arguments ih =>
    obtain ⟨hfirst, hothers⟩ := List.forall_mem_cons.mp h
    rw [List.map_cons, List.flatten_cons, jumpTargets_append, hfirst, ih hothers, List.nil_append]

/-- A call does not jump. -/
theorem jumpTargets_call {entry index : Nat} {saved : List Nat} {arguments : List Line}
    (h : jumpTargets arguments = []) :
  jumpTargets (Lower.call entry index saved arguments) = []
  := by
  rw [Lower.call, jumpTargets_append, jumpTargets_append, jumpTargets_map_load, h, List.nil_append]
  apply jumpTargets_map_store

/-- Code that jumps only to its own labels may be put together. -/
theorem jumpTargets_append_subset {code code' : List Line} (h : jumpTargets code ⊆ labels code)
    (h' : jumpTargets code' ⊆ labels code') :
  jumpTargets (code ++ code') ⊆ labels (code ++ code')
  := by
  rw [jumpTargets_append, labels_append]
  apply List.append_subset.mpr
  constructor
  · apply List.subset_append_of_subset_left _ h
  · apply List.subset_append_of_subset_right _ h'

/-- A branch jumps only to its own labels and those in its arms. -/
theorem jumpTargets_branch {number : Nat} {condition consequence alternative : List Line}
    (hcondition : jumpTargets condition = []) (h : jumpTargets consequence ⊆ labels consequence)
    (h' : jumpTargets alternative ⊆ labels alternative) :
  jumpTargets (Lower.branch number condition consequence alternative)
    ⊆ labels (Lower.branch number condition consequence alternative)
  := by
  intro label hlabel
  simp only [Lower.branch, jumpTargets_append, hcondition, jumpTargets_push,
    jumpTargets_jumpIfEqual, jumpTargets_jump, jumpTargets_label, jumpTargets_nil,
    List.nil_append, List.cons_append, List.append_nil, List.mem_cons, List.mem_append] at hlabel
  simp only [Lower.branch, labels_append, labels_instruction, labels_label, labels_nil,
    List.mem_cons, List.mem_append, List.not_mem_nil, or_false]
  rcases hlabel with rfl | hfirst | rfl | hsecond
  · simp
  · simp [h hfirst]
  · simp
  · simp [h' hsecond]

/-- A loop jumps only to its own labels and those in its body. -/
theorem jumpTargets_loop {number : Nat} {condition body : List Line}
    (hcondition : jumpTargets condition = []) (h : jumpTargets body ⊆ labels body) :
  jumpTargets (Lower.loop number condition body) ⊆ labels (Lower.loop number condition body)
  := by
  intro label hlabel
  simp only [Lower.loop, jumpTargets_append, hcondition, jumpTargets_push, jumpTargets_jumpIfEqual,
    jumpTargets_jump, jumpTargets_label, jumpTargets_nil, List.nil_append, List.cons_append,
    List.mem_cons, List.mem_append, List.not_mem_nil, or_false] at hlabel
  simp only [Lower.loop, labels_append, labels_instruction, labels_label, labels_nil,
    List.cons_append, List.mem_cons, List.mem_append, List.not_mem_nil, or_false]
  rcases hlabel with rfl | hbody | rfl
  · simp
  · simp [h hbody]
  · simp

section Targets

variable {entry : Nat} {functions : List (Nat × Nat)} {start stop : Numbering}
  {calls : List CallCode} {code : List Line}

/-- The code of a value does not jump. -/
theorem ValueCode.jumpTargets_eq (h : ValueCode entry calls code) :
  jumpTargets code = []
  := by
  induction h with
  | push value => rfl
  | load slot => rfl
  | input slot => rfl
  | math op h ih =>
    rw [jumpTargets_append, ih]
    rfl
  | arithmetic op hleft hright ihl ihr =>
    rw [jumpTargets_append, jumpTargets_append, ihl, ihr]
    rfl
  | comparison op hleft hright ihl ihr =>
    rw [jumpTargets_append, jumpTargets_append, ihl, ihr]
    rfl
  | call index saved harguments ih =>
    rw [jumpTargets_append, jumpTargets_call (jumpTargets_arguments ih)]
    rfl

/-- Statements jump only to labels in their own code. -/
theorem BodyCode.jumpTargets_subset (h : BodyCode entry start calls code stop) :
  jumpTargets code ⊆ labels code
  := by
  induction h with
  | nil start => apply List.nil_subset
  | append h h' ih ih' => apply jumpTargets_append_subset ih ih'
  | assign start slot hvalue =>
    rw [jumpTargets_append, hvalue.jumpTargets_eq]
    apply List.nil_subset
  | call start index saved harguments =>
    have hnone := jumpTargets_arguments fun argument hmem =>
      (harguments argument hmem).jumpTargets_eq
    rw [jumpTargets_call hnone]
    apply List.nil_subset
  | ret start hvalue =>
    rw [jumpTargets_append, hvalue.jumpTargets_eq]
    apply List.nil_subset
  | input start slot => apply List.nil_subset
  | output start op hvalue =>
    rw [jumpTargets_append, hvalue.jumpTargets_eq]
    apply List.nil_subset
  | branch htest hconsequence halternative ih ih' =>
    apply jumpTargets_branch htest.jumpTargets_eq ih ih'
  | loop htest hbody ih => apply jumpTargets_loop htest.jumpTargets_eq ih

/-- The code of functions jumps only to its own labels. -/
theorem FunctionsCode.jumpTargets_subset (h : FunctionsCode entry functions start calls code stop) :
  jumpTargets code ⊆ labels code
  := by
  induction h with
  | nil start => apply List.nil_subset
  | cons index slots hbody hending hlast hcode ih =>
    apply jumpTargets_append_subset _ ih
    apply jumpTargets_append_subset
    · rw [jumpTargets_label, jumpTargets_map_store]
      apply List.nil_subset
    · apply jumpTargets_append_subset hbody.jumpTargets_subset
      rcases hending with rfl | rfl <;> apply List.nil_subset

/-- A program jumps only to labels in its code. -/
theorem ProgramCode.jumpTargets_subset (h : ProgramCode entry functions start calls code stop) :
  jumpTargets code ⊆ labels code
  := by
  cases h with
  | mk hcode hmain =>
    intro label hlabel
    simp only [jumpTargets_append, List.cons_append, jumpTargets_jump, jumpTargets_label,
      List.mem_cons, List.mem_append] at hlabel
    simp only [labels_append, labels_instruction, labels_label, List.cons_append, List.mem_cons,
      List.mem_append]
    rcases hlabel with rfl | (h | h) | h
    · simp
    · simp [hcode.jumpTargets_subset h]
    · simp [hmain.jumpTargets_subset h]
    · cases h

end Targets

/-! ### Heights of a whole code -/

/-- Balanced code has a height before each of its lines. -/
theorem Balanced.exists_height {parameters : Nat → Nat} {code : List Line} {start stop : Nat}
    (h : Balanced parameters code start stop) :
  ∃ height : Nat → Nat, height 0 = start
    ∧ ∀ (i : Nat) (line : Line), code[i]? = some line →
        line.Fits parameters (height i) (height (i + 1))
  := by
  induction h with
  | nil height =>
    use fun _ => height, rfl
    nofun
  | @cons line code start next stop hline h ih =>
    obtain ⟨height, rfl, hfits⟩ := ih
    use fun i => Nat.casesOn i start height, rfl
    intro i other hother
    cases i with
    | zero =>
      obtain rfl := Option.some.inj hother
      apply hline
    | succ i => apply hfits i other hother

/-- Heights that fit every line, and jumps that have their labels, make a stack discipline. -/
theorem StackDiscipline.of_fits {parameters : Nat → Nat} {code : List Line} {height : Nat → Nat}
    (h : ∀ (i : Nat) (line : Line), code[i]? = some line →
      line.Fits parameters (height i) (height (i + 1)))
    (htargets : jumpTargets code ⊆ labels code) :
  StackDiscipline parameters code height
  := by
  constructor
  · intro i hi
    apply (h i _ hi).1
  · intro i index hi
    apply (h i _ hi).1
  · intro i label hi
    apply (h i _ hi).2
  · intro i instruction hi
    apply (h i _ hi).needs
  · intro i instruction hi hgoesOn
    apply (h i _ hi).next hgoesOn
  · intro i instruction target hi htarget
    have hmem : target ∈ jumpTargets code :=
      List.mem_filterMap.mpr ⟨_, List.mem_of_getElem? hi, htarget⟩
    obtain ⟨line, hline, hlabel⟩ := List.mem_filterMap.mp (htargets hmem)
    cases line with
    | instruction i => cases hlabel
    | label l =>
      cases hlabel
      apply List.mem_iff_getElem?.mp hline
  · intro i j instruction target hi htarget hj
    rw [(h j _ hj).1]
    apply (h i _ hi).jump target htarget
  · intro i instruction hi hleaves
    apply (h i _ hi).leave hleaves

namespace Tree.LaysOut

variable {t : Tree} {first : Definition} {others : List Definition}

/-- If the entry function has no parameters, then what stands at a label of a function are its
parameters. -/
theorem labelHeight_target (h : t.LaysOut first others) (hfirst : first.parameters = [])
    {d : Definition} (hd : d ∈ first :: others) :
  labelHeight t.unfolding.parameterCount
      (Lower.target (t.funcs.intern first.name).1 (t.funcs.intern d.name).1)
    = d.parameters.length
  := by
  unfold Lower.target
  split
  · rename_i hindex
    obtain rfl := h.eq_of_index_eq hd List.mem_cons_self hindex
    rw [hfirst]
    rfl
  · apply h.parameterCount_eq hd

/-- The code of a tree whose entry function has no parameters keeps to the stack discipline. -/
theorem stackDiscipline (h : t.LaysOut first others) (hverify : t.verify = ∅)
    (hfirst : first.parameters = []) (numbering : Numbering) :
  ∃ height, StackDiscipline t.unfolding.parameterCount
    (Definition.programCode t.vars t.funcs first others numbering).1 height
  := by
  have hcallable : ∀ call ∈ (first :: others).map (Definition.signature t.funcs),
      labelHeight t.unfolding.parameterCount
        (Lower.target (t.funcs.intern first.name).1 call.1) = call.2 := by
    intro call hcall
    obtain ⟨d, hd, rfl⟩ := List.mem_map.mp hcall
    apply h.labelHeight_target hfirst hd
  have hcalls : ∀ d ∈ first :: others,
      (Shape.chain (Statement.shapes t.vars t.funcs d.body)).collect Shape.callAt
        ⊆ (first :: others).map (Definition.signature t.funcs) := by
    intro d hd
    apply List.Subset.trans (Definition.collect_body_subset hd) (h.calls_subset hverify)
  obtain ⟨calls, hform, harities⟩ := Definition.programCode_form hcalls numbering
  have hbalanced : Balanced t.unfolding.parameterCount
      (Definition.programCode t.vars t.funcs first others numbering).1 0 0 := by
    apply hform.balanced
    · intro call hcall
      apply hcallable call.arity (harities call hcall)
    · intro call hcall
      apply hcallable call (List.mem_cons_of_mem _ hcall)
  obtain ⟨height, -, hfits⟩ := hbalanced.exists_height
  use height
  apply StackDiscipline.of_fits hfits hform.jumpTargets_subset

end Tree.LaysOut

/-- The assembly of a source whose entry function has no parameters is code that keeps to the stack
discipline. -/
theorem compile_stackDiscipline {source entry : String} {c : Compilation} {index : Nat}
    (hcompile : (compile source entry).result = .ok c)
    (hentry : c.tree.unfolding.entry? = some index)
    (hparameters : c.tree.unfolding.parameterCount index = 0) :
  ∃ code height, assemble c.assembly = some code
    ∧ StackDiscipline c.tree.unfolding.parameterCount code height
  := by
  obtain ⟨first, others, hlays, hverify, hassembly⟩ := compile_eq_ok hcompile
  rw [hlays.shows.entry?] at hentry
  cases hentry
  rw [hlays.parameterCount_eq List.mem_cons_self] at hparameters
  obtain ⟨height, hdiscipline⟩ :=
    hlays.stackDiscipline hverify (List.eq_nil_of_length_eq_zero hparameters) {}
  rw [hassembly]
  exact ⟨_, height, hlays.assemble_eq {}, hdiscipline⟩

/-- A call within the arguments of a call, in the condition of a loop, keeps to the stack
discipline. -/
theorem compile_stackDiscipline_nested_call :
  ∃ c, (compile ("Mellon main Black So it begins f Fellowship f Fellowship IN a of the Ring "
      ++ "of the Ring Black Gates Precious Gates Mellon f Fellowship x of the Ring Black "
      ++ "Return of the King x Precious Gates") "main").result = .ok c
    ∧ ∃ code height, assemble c.assembly = some code
      ∧ StackDiscipline c.tree.unfolding.parameterCount code height
  := by
  have hcompile : (compile
      ("Mellon main Black So it begins f Fellowship f Fellowship IN a of the Ring "
      ++ "of the Ring Black Gates Precious Gates Mellon f Fellowship x of the Ring Black "
      ++ "Return of the King x Precious Gates") "main").result.toOption.map
        (fun c => (c.tree.unfolding.entry?, c.tree.unfolding.parameterCount 0))
      = some (some 0, 0) := by
    decide +kernel
  obtain ⟨c, hc, hentry⟩ := Option.map_eq_some_iff.mp hcompile
  obtain ⟨hentry, hparameters⟩ := Prod.mk.inj hentry
  use c, eq_ok_of_toOption hc
  apply compile_stackDiscipline (eq_ok_of_toOption hc) hentry hparameters

end StackCompiler
