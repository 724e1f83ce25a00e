import StackCompiler.Proofs.Assembly.Labels

/-!
# Calls

Every call instruction in the code of a program belongs to the call at its place among the calls of
the code: what the call saves and the code of its arguments stand right before it, and what it
restores stands right after it.  Then the result is pushed if a value is wanted, and it is not
pushed if the call is a statement.  So each call stands in the code in one piece.

The code after the label of a function begins with one store for each parameter, and no more.
-/

namespace StackCompiler

/-- The labels that the code calls. -/
def callTargets (code : List Line) : List Label :=
  code.filterMap fun
    | .instruction (.call target) => some target
    | _ => none

/-- The calls of one piece of code come before those of the next one. -/
@[simp]
theorem callTargets_append (code code' : List Line) :
  callTargets (code ++ code') = callTargets code ++ callTargets code'
  := List.filterMap_append

@[simp]
theorem callTargets_map_load (slots : List Nat) :
  callTargets (slots.map fun slot => .instruction (.load slot)) = []
  := by
  induction slots with
  | nil => rfl
  | cons slot slots ih => apply ih

@[simp]
theorem callTargets_map_store (slots : List Nat) :
  callTargets (slots.map fun slot => .instruction (.store slot)) = []
  := by
  induction slots with
  | nil => rfl
  | cons slot slots ih => apply ih

/-- The target of a call stands behind those of the calls before it. -/
theorem getElem?_callTargets (before after : List Line) (label : Label) :
  (callTargets (before ++ .instruction (.call label) :: after))[(callTargets before).length]?
    = some label
  := by
  rw [callTargets_append, List.getElem?_append_right (Nat.le_refl _), Nat.sub_self]
  rfl

/-- Every label that is called is called by an instruction at its place. -/
theorem exists_call_of_getElem? {code : List Line} {place : Nat} {label : Label}
    (h : (callTargets code)[place]? = some label) :
  ∃ before after, code = before ++ .instruction (.call label) :: after
    ∧ (callTargets before).length = place
  := by
  induction code generalizing place with
  | nil => cases h
  | cons line code ih =>
    by_cases hline : callTargets [line] = []
    · have hcons : callTargets (line :: code) = callTargets code := by
        rw [← List.singleton_append, callTargets_append, hline, List.nil_append]
      rw [hcons] at h
      obtain ⟨before, after, rfl, hplace⟩ := ih h
      use line :: before, after, rfl
      rw [← hplace, ← List.singleton_append, callTargets_append, hline, List.nil_append]
    · obtain ⟨other, rfl⟩ : ∃ other, line = .instruction (.call other) := by
        cases line with
        | label l => cases hline rfl
        | instruction i =>
          cases i with
          | call other => exact ⟨other, rfl⟩
          | _ => cases hline rfl
      cases place with
      | zero =>
        cases h
        exact ⟨[], code, rfl, rfl⟩
      | succ place =>
        obtain ⟨before, after, rfl, hplace⟩ := ih h
        exact ⟨.instruction (.call other) :: before, after, rfl, congrArg Nat.succ hplace⟩

/-- A line of code joined to other code is in the one or in the other. -/
theorem append_eq_append_cons {line : Line} {code code' before after : List Line}
    (h : code ++ code' = before ++ line :: after) :
  (∃ rest, code = before ++ line :: rest ∧ after = rest ++ code')
    ∨ ∃ rest, before = code ++ rest ∧ code' = rest ++ line :: after
  := by
  rcases List.append_eq_append_iff.mp h with ⟨rest, hbefore, hcode'⟩ | ⟨rest, hcode, hrest⟩
  · exact .inr ⟨rest, hbefore, hcode'⟩
  · cases rest with
    | nil =>
      rw [List.append_nil] at hcode
      rw [List.nil_append] at hrest
      exact .inr ⟨[], by rw [hcode, List.append_nil], by rw [hrest, List.nil_append]⟩
    | cons first rest =>
      obtain ⟨rfl, rfl⟩ := List.cons.inj hrest
      exact .inl ⟨rest, hcode, rfl⟩

/-! ### Call sites -/

/-- What a call saves and the code of its arguments stand at the end of `before`, and what it
restores stands at the beginning of `after`. -/
structure CallCode.StandsBetween (call : CallCode) (before after : List Line) : Prop where
  arguments : call.saved.map (fun slot => .instruction (.load slot)) ++ call.values.flatten
    <:+ before
  restores : call.saved.reverse.map (fun slot => .instruction (.store slot)) <+: after

/-- A call site stays one when code is put before and after it. -/
theorem CallCode.StandsBetween.append {call : CallCode} {before after : List Line}
    (h : call.StandsBetween before after) (code code' : List Line) :
  call.StandsBetween (code ++ before) (after ++ code')
  := by
  constructor
  · apply h.arguments.trans (List.suffix_append code before)
  · apply h.restores.trans (List.prefix_append after code')

/-- Whether code begins with an instruction that pushes the result. -/
def beginsWithResult (code : List Line) : Bool :=
  match code.head? with
  | some (.instruction .pushResult) => true
  | _ => false

/-- Code that does not begin with the push of a result does not begin so before other such code. -/
theorem beginsWithResult_append {code code' : List Line} (h : beginsWithResult code = false)
    (h' : beginsWithResult code' = false) :
  beginsWithResult (code ++ code') = false
  := by
  cases code with
  | nil => exact h'
  | cons line code => exact h

/-- What pushes the result of a call, if a value is wanted. -/
def CallCode.result (call : CallCode) : List Line :=
  if call.asValue then [.instruction .pushResult] else []

/-- The result of a call is pushed right after what the call restores, if a value is wanted, and
otherwise it is not pushed. -/
def CallCode.ResultFollows (call : CallCode) (after : List Line) : Prop :=
  ∃ rest, after
      = call.saved.reverse.map (fun slot => .instruction (.store slot)) ++ call.result ++ rest
    ∧ beginsWithResult rest = false

/-- Whether the result of a call is pushed is not changed by code after it that begins with
something else. -/
theorem CallCode.ResultFollows.append {call : CallCode} {after code : List Line}
    (h : call.ResultFollows after) (hcode : beginsWithResult code = false) :
  call.ResultFollows (after ++ code)
  := by
  obtain ⟨rest, rfl, hrest⟩ := h
  exact ⟨rest ++ code, List.append_assoc _ _ _, beginsWithResult_append hrest hcode⟩

/-- The code calls the labels of the given calls, and each call instruction belongs to the call at
its place. -/
structure CallSites (entry : Nat) (calls : List CallCode) (code : List Line) : Prop where
  targets : callTargets code = calls.map fun call => Lower.target entry call.index
  head : beginsWithResult code = false
  sites : ∀ before label after, code = before ++ .instruction (.call label) :: after →
    ∃ call, calls[(callTargets before).length]? = some call
      ∧ label = Lower.target entry call.index ∧ call.StandsBetween before after
      ∧ call.ResultFollows after

namespace CallSites

variable {entry : Nat} {calls calls' : List CallCode} {code code' : List Line}

/-- Code without call instructions has no call sites. -/
theorem of_callTargets_eq_nil (h : callTargets code = []) (hhead : beginsWithResult code = false) :
  CallSites entry [] code
  := by
  use h, hhead
  rintro before label after rfl
  simp [callTargets] at h

/-- The call sites of one piece of code come before those of the next one. -/
theorem append (h : CallSites entry calls code) (h' : CallSites entry calls' code') :
  CallSites entry (calls ++ calls') (code ++ code')
  := by
  constructor
  · rw [callTargets_append, h.targets, h'.targets, List.map_append]
  · exact beginsWithResult_append h.head h'.head
  · intro before label after heq
    rcases append_eq_append_cons heq with ⟨rest, hcode, rfl⟩ | ⟨rest, rfl, hcode'⟩
    · obtain ⟨call, hcall, hlabel, hstands, hresult⟩ := h.sites before label rest hcode
      use call
      rw [List.getElem?_append_left (List.getElem?_eq_some_iff.mp hcall).1]
      exact ⟨hcall, hlabel, hstands.append [] code', hresult.append h'.head⟩
    · obtain ⟨call, hcall, hlabel, hstands, hresult⟩ := h'.sites rest label after hcode'
      have hlength : (callTargets (code ++ rest)).length
          = calls.length + (callTargets rest).length := by
        rw [callTargets_append, List.length_append, h.targets, List.length_map]
      use call
      rw [hlength, List.getElem?_append_right (Nat.le_add_right _ _), Nat.add_sub_cancel_left]
      refine ⟨hcall, hlabel, ?_, hresult⟩
      simpa using hstands.append code []

/-- Code without calls after other code adds no call sites. -/
theorem append_none (h : CallSites entry calls code) (hnone : callTargets code' = [])
    (hhead : beginsWithResult code' = false) :
  CallSites entry calls (code ++ code')
  := by
  have happend := h.append (of_callTargets_eq_nil hnone hhead)
  rwa [List.append_nil] at happend

/-- Code without calls before other code adds no call sites. -/
theorem none_append (hnone : callTargets code = []) (hhead : beginsWithResult code = false)
    (h : CallSites entry calls code') :
  CallSites entry calls (code ++ code')
  := (of_callTargets_eq_nil hnone hhead).append h

/-- A line that is no call before other code adds no call site. -/
theorem cons {line : Line} (hline : callTargets [line] = [])
    (hhead : beginsWithResult [line] = false) (h : CallSites entry calls code) :
  CallSites entry calls (line :: code)
  := none_append hline hhead h

/-- The call instruction of a call comes after those of its arguments. -/
theorem call {index : Nat} {saved : List Nat} {values : List (List Line)} (asValue : Bool)
    (h : CallSites entry calls values.flatten) :
  CallSites entry (calls ++ [⟨index, saved, values, asValue⟩])
    (Lower.call entry index saved values.flatten
      ++ CallCode.result ⟨index, saved, values, asValue⟩)
  := by
  have hloads : beginsWithResult (saved.map fun slot => .instruction (.load slot)) = false := by
    cases saved <;> rfl
  have hfirst : CallSites entry calls
      (saved.map (fun slot => .instruction (.load slot)) ++ values.flatten) :=
    none_append (callTargets_map_load saved) hloads h
  -- Nothing is called while the slots are restored and the result is pushed.
  have hnone : callTargets (saved.reverse.map (fun slot => .instruction (.store slot))
      ++ CallCode.result ⟨index, saved, values, asValue⟩) = [] := by
    rw [callTargets_append, callTargets_map_store, List.nil_append]
    cases asValue <;> rfl
  rw [Lower.call, List.append_assoc]
  constructor
  · rw [callTargets_append, hfirst.targets, List.map_append]
    exact congrArg (_ ++ Lower.target entry index :: ·) hnone
  · exact beginsWithResult_append hfirst.head rfl
  · intro before label after heq
    rcases append_eq_append_cons heq with ⟨rest, hcode, rfl⟩ | ⟨rest, rfl, hcode'⟩
    · obtain ⟨call, hcall, hlabel, hstands, hresult⟩ := hfirst.sites before label rest hcode
      use call
      rw [List.getElem?_append_left (List.getElem?_eq_some_iff.mp hcall).1]
      exact ⟨hcall, hlabel, hstands.append [] _, hresult.append rfl⟩
    · cases rest with
      | nil =>
        obtain ⟨hlabel, rfl⟩ := List.cons.inj hcode'
        cases hlabel
        use ⟨index, saved, values, asValue⟩
        rw [List.append_nil, hfirst.targets, List.length_map, List.getElem?_concat_length]
        exact ⟨rfl, rfl, ⟨List.suffix_refl _, List.prefix_append _ _⟩,
          [], (List.append_nil _).symm, rfl⟩
      | cons first rest =>
        obtain ⟨-, hstores⟩ := List.cons.inj hcode'
        have hcalls := (congrArg callTargets hstores).symm.trans hnone
        simp [callTargets] at hcalls

/-- The call sites of arguments are those of one argument after the other. -/
theorem arguments {arguments : List (List CallCode × List Line)}
    (h : ∀ argument ∈ arguments, CallSites entry argument.1 argument.2) :
  CallSites entry (arguments.map (·.1)).flatten (arguments.map (·.2)).flatten
  := by
  induction arguments with
  | nil => apply of_callTargets_eq_nil rfl rfl
  | cons argument arguments ih =>
    obtain ⟨hfirst, hothers⟩ := List.forall_mem_cons.mp h
    apply hfirst.append (ih hothers)

/-- Each call stands in the code in one piece. -/
theorem piece (h : CallSites entry calls code) {place : Nat} {call : CallCode}
    (hcall : calls[place]? = some call) :
  ∃ before after,
    code = before
      ++ (Lower.call entry call.index call.saved call.values.flatten ++ call.result) ++ after
    ∧ (callTargets (before ++ call.values.flatten)).length = place
    ∧ beginsWithResult after = false
  := by
  have htarget : (callTargets code)[place]? = some (Lower.target entry call.index) := by
    rw [h.targets, List.getElem?_map, hcall, Option.map_some]
  obtain ⟨before, after, rfl, rfl⟩ := exists_call_of_getElem? htarget
  obtain ⟨other, hother, -, hstands, rest, rfl, hrest⟩ := h.sites before _ after rfl
  obtain rfl := Option.some.inj (hcall.symm.trans hother)
  obtain ⟨front, rfl⟩ := hstands.arguments
  use front, rest
  refine ⟨?_, ?_, hrest⟩
  · simp only [Lower.call, List.append_assoc, List.cons_append]
  · simp only [callTargets_append, callTargets_map_load, List.nil_append]

end CallSites

section Forms

variable {entry : Nat} {functions : List (Nat × Nat)} {start stop : Numbering}
  {calls : List CallCode} {code : List Line}

/-- The calls that the code of a value is made of are its call sites. -/
theorem ValueCode.callSites (h : ValueCode entry calls code) :
  CallSites entry calls code
  := by
  induction h with
  | push value => apply CallSites.of_callTargets_eq_nil rfl rfl
  | load slot => apply CallSites.of_callTargets_eq_nil rfl rfl
  | input slot => apply CallSites.of_callTargets_eq_nil rfl rfl
  | math op h ih => apply ih.append_none rfl rfl
  | arithmetic op hleft hright ihl ihr => apply (ihl.append ihr).append_none rfl rfl
  | comparison op hleft hright ihl ihr => apply (ihl.append ihr).append_none rfl rfl
  | call index saved harguments ih => apply (CallSites.arguments ih).call true

/-- The calls that the code of a body is made of are its call sites. -/
theorem BodyCode.callSites (h : BodyCode entry start calls code stop) :
  CallSites entry calls code
  := by
  induction h with
  | nil start => apply CallSites.of_callTargets_eq_nil rfl rfl
  | append h h' ih ih' => apply ih.append ih'
  | assign start slot hvalue => apply hvalue.callSites.append_none rfl rfl
  | call start index saved harguments =>
    rw [← List.append_nil (Lower.call _ _ _ _)]
    apply CallSites.call false
    apply CallSites.arguments
    intro argument hargument
    apply (harguments argument hargument).callSites
  | ret start hvalue => apply hvalue.callSites.append_none rfl rfl
  | input start slot => apply CallSites.of_callTargets_eq_nil rfl rfl
  | output start op hvalue => apply hvalue.callSites.append_none rfl rfl
  | branch htest hconsequence halternative ih ih' =>
    rw [← List.append_assoc]
    apply CallSites.append_none _ rfl rfl
    apply (htest.callSites.append ((ih.cons rfl rfl).cons rfl rfl)).append
    apply (ih'.cons rfl rfl).cons rfl rfl
  | loop htest hbody ih =>
    apply CallSites.append_none _ rfl rfl
    apply (htest.callSites.cons rfl rfl).append ((ih.cons rfl rfl).cons rfl rfl)

/-- The calls that the code of functions is made of are its call sites. -/
theorem FunctionsCode.callSites (h : FunctionsCode entry functions start calls code stop) :
  CallSites entry calls code
  := by
  induction h with
  | nil start => apply CallSites.of_callTargets_eq_nil rfl rfl
  | @cons functions start middle stop index slots calls calls' body ending code hbody hending hlast
      hcode ih =>
    apply CallSites.append _ ih
    apply CallSites.none_append _ rfl
    · apply hbody.callSites.append_none
      · rcases hending with rfl | rfl <;> rfl
      · rcases hending with rfl | rfl <;> rfl
    · apply callTargets_map_store

/-- Every call instruction of a program belongs to the call at its place. -/
theorem ProgramCode.callSites (h : ProgramCode entry functions start calls code stop) :
  CallSites entry calls code
  := by
  cases h with
  | mk hcode hmain =>
    apply CallSites.append_none _ rfl rfl
    apply (hcode.callSites.cons rfl rfl).append (hmain.callSites.cons rfl rfl)

end Forms

/-! ### Parameters -/

/-- Whether a line takes a value off the stack and stores it. -/
def Line.isStore : Line → Bool
  | .instruction (.store _) => true
  | _ => false

/-- The number of stores with which the code begins. -/
def storesAhead (code : List Line) : Nat :=
  (code.takeWhile Line.isStore).length

/-- Stores at the front of code are counted before the stores that follow. -/
theorem storesAhead_map_store_append (slots : List Nat) (code : List Line) :
  storesAhead (slots.map (fun slot => .instruction (.store slot)) ++ code)
    = slots.length + storesAhead code
  := by
  induction slots with
  | nil => rw [List.map_nil, List.nil_append, List.length_nil, Nat.zero_add]
  | cons slot slots ih =>
    rw [List.length_cons, Nat.add_right_comm, ← ih]
    rfl

/-- Only the first line decides whether there are stores ahead. -/
theorem storesAhead_append {code : List Line} (hne : code ≠ []) (h : storesAhead code = 0)
    (code' : List Line) :
  storesAhead (code ++ code') = 0
  := by
  cases code with
  | nil => cases hne rfl
  | cons line code =>
    unfold storesAhead at h ⊢
    rw [List.takeWhile_cons] at h
    rw [List.cons_append, List.takeWhile_cons]
    split at h
    · cases h
    · rename_i hline
      rw [if_neg hline]
      rfl

/-- Code that begins with no store does not begin with one before other such code. -/
theorem storesAhead_append_eq_zero {code code' : List Line} (h : storesAhead code = 0)
    (h' : storesAhead code' = 0) :
  storesAhead (code ++ code') = 0
  := by
  by_cases hne : code = []
  · rwa [hne, List.nil_append]
  · apply storesAhead_append hne h

/-- The code of a call begins with no store, because something is pushed or called first. -/
theorem storesAhead_call {entry index : Nat} {saved : List Nat} {arguments : List Line}
    (h : storesAhead arguments = 0) :
  storesAhead (Lower.call entry index saved arguments) = 0
  := by
  rw [Lower.call]
  apply storesAhead_append_eq_zero (storesAhead_append_eq_zero _ h) rfl
  cases saved <;> rfl

/-- The code of arguments begins with no store. -/
theorem storesAhead_arguments {arguments : List (List CallCode × List Line)}
    (h : ∀ argument ∈ arguments, storesAhead argument.2 = 0) :
  storesAhead (arguments.map (·.2)).flatten = 0
  := by
  induction arguments with
  | nil => rfl
  | cons argument arguments ih =>
    obtain ⟨hfirst, hothers⟩ := List.forall_mem_cons.mp h
    apply storesAhead_append_eq_zero hfirst (ih hothers)

section Parameters

variable {entry : Nat} {functions : List (Nat × Nat)} {start stop : Numbering}
  {calls : List CallCode} {code : List Line}

/-- The code of a value is not empty, since the value has to be pushed. -/
theorem ValueCode.ne_nil (h : ValueCode entry calls code) :
  code ≠ []
  := by
  cases h <;> simp

/-- The code of a value begins with no store. -/
theorem ValueCode.storesAhead_eq (h : ValueCode entry calls code) :
  storesAhead code = 0
  := by
  induction h with
  | push value => rfl
  | load slot => rfl
  | input slot => rfl
  | math op h ih => apply storesAhead_append h.ne_nil ih
  | arithmetic op hleft hright ihl ihr =>
    rw [List.append_assoc]
    apply storesAhead_append hleft.ne_nil ihl
  | comparison op hleft hright ihl ihr =>
    rw [List.append_assoc]
    apply storesAhead_append hleft.ne_nil ihl
  | call index saved harguments ih =>
    apply storesAhead_append_eq_zero (storesAhead_call (storesAhead_arguments ih)) rfl

/-- Statements do not begin with a store. -/
theorem BodyCode.storesAhead_eq (h : BodyCode entry start calls code stop) :
  storesAhead code = 0
  := by
  induction h with
  | nil start => rfl
  | append h h' ih ih' => apply storesAhead_append_eq_zero ih ih'
  | assign start slot hvalue => apply storesAhead_append hvalue.ne_nil hvalue.storesAhead_eq
  | call start index saved harguments =>
    apply storesAhead_call
    apply storesAhead_arguments
    intro argument hargument
    apply (harguments argument hargument).storesAhead_eq
  | ret start hvalue => apply storesAhead_append hvalue.ne_nil hvalue.storesAhead_eq
  | input start slot => rfl
  | output start op hvalue => apply storesAhead_append hvalue.ne_nil hvalue.storesAhead_eq
  | branch htest hconsequence halternative ih ih' =>
    simp only [Lower.branch, List.append_assoc]
    apply storesAhead_append htest.ne_nil htest.storesAhead_eq
  | loop htest hbody ih => rfl

/-- The stores after the label of a function are those of its parameters. -/
theorem storesAhead_function (slots : List Nat) {body ending : List Line}
    (hbody : BodyCode entry start calls body stop)
    (hending : ending = [] ∨ ending = [.instruction .ret])
    (hlast : (body ++ ending).getLast? = some (.instruction .ret)) (more : List Line) :
  storesAhead (slots.reverse.map (fun slot => .instruction (.store slot)) ++ (body ++ ending)
      ++ more)
    = slots.length
  := by
  have hne : body ++ ending ≠ [] := by
    intro hnil
    rw [hnil] at hlast
    cases hlast
  have hzero : storesAhead (body ++ ending) = 0 := by
    apply storesAhead_append_eq_zero hbody.storesAhead_eq
    rcases hending with rfl | rfl <;> rfl
  rw [List.append_assoc, storesAhead_map_store_append, storesAhead_append hne hzero,
    List.length_reverse, Nat.add_zero]

/-- What follows the label of a function are the stores of its parameters. -/
theorem FunctionsCode.exists_label (h : FunctionsCode entry functions start calls code stop)
    (more : List Line) {f : Nat × Nat} (hf : f ∈ functions) :
  ∃ before after, code ++ more = before ++ .label (Lower.target entry f.1) :: after
    ∧ storesAhead after = f.2
  := by
  induction h with
  | nil start => cases hf
  | @cons functions start middle stop index slots calls calls' body ending code hbody hending hlast
      hcode ih =>
    rw [List.append_assoc]
    rcases List.mem_cons.mp hf with rfl | hf
    · use [], slots.reverse.map (fun slot => .instruction (.store slot)) ++ (body ++ ending)
        ++ (code ++ more), rfl
      apply storesAhead_function slots hbody hending hlast
    · obtain ⟨before, after, heq, hafter⟩ := ih hf
      rw [heq, ← List.append_assoc]
      exact ⟨_, after, rfl, hafter⟩

/-- After the label of a function stand as many stores as it has parameters. -/
theorem FunctionsCode.mem_of_label (h : FunctionsCode entry functions start calls code stop)
    {more before after : List Line} {index : Nat} (hmore : .function index ∉ labels more)
    (heq : code ++ more = before ++ .label (.function index) :: after) :
  (index, storesAhead after) ∈ functions
  := by
  induction h generalizing before with
  | nil start =>
    rw [List.nil_append] at heq
    rw [heq] at hmore
    simp at hmore
  | @cons functions start middle stop other slots calls calls' body ending code hbody hending hlast
      hcode ih =>
    rw [List.append_assoc] at heq
    rcases append_eq_append_cons heq with ⟨rest, hfirst, rfl⟩ | ⟨rest, rfl, hothers⟩
    · rw [List.cons_append] at hfirst
      cases before with
      | nil =>
        obtain ⟨hlabel, rfl⟩ := List.cons.inj hfirst
        obtain ⟨rfl, -⟩ := Lower.target_eq_function_iff.mp (Line.label.inj hlabel)
        rw [storesAhead_function slots hbody hending hlast]
        apply List.mem_cons_self
      | cons line before =>
        -- All other labels in the code of a function are those of branches and loops.
        rw [List.cons_append] at hfirst
        obtain ⟨-, hrest⟩ := List.cons.inj hfirst
        have hnone : labels ending = [] := by
          rcases hending with rfl | rfl <;> rfl
        have hmem : .function index ∈ labels (before ++ .label (.function index) :: rest) := by
          simp
        rw [← hrest, labels_append, labels_map_instruction, List.nil_append, labels_append, hnone,
          List.append_nil] at hmem
        cases hbody.numbered.isBetween _ hmem
    · apply List.mem_cons_of_mem _ (ih hothers)

/-- Each function has its label in the code, with a store for each parameter after it. -/
theorem ProgramCode.exists_label (h : ProgramCode entry functions start calls code stop)
    {f : Nat × Nat} (hf : f ∈ functions) :
  ∃ before after, code = before ++ .label (Lower.target entry f.1) :: after
    ∧ storesAhead after = f.2
  := by
  cases h with
  | @mk middle _ calls calls' code main hcode hmain =>
    obtain ⟨before, after, heq, hafter⟩ :=
      hcode.exists_label (.label .main :: main ++ [.instruction .halt]) hf
    use .instruction (.jump .main) :: before, after
    rw [List.append_assoc, List.cons_append, heq, List.cons_append]
    exact ⟨rfl, hafter⟩

/-- Every label of a function in the code of a program is that of one of its functions, and is
followed by the stores of its parameters. -/
theorem ProgramCode.mem_of_label (h : ProgramCode entry functions start calls code stop)
    {before after : List Line} {index : Nat}
    (heq : code = before ++ .label (.function index) :: after) :
  (index, storesAhead after) ∈ functions
  := by
  cases h with
  | @mk middle _ calls calls' code main hcode hmain =>
    rw [List.append_assoc, List.cons_append] at heq
    cases before with
    | nil => cases heq
    | cons line before =>
      obtain ⟨-, heq⟩ := List.cons.inj heq
      apply hcode.mem_of_label _ heq
      intro hmem
      simp only [List.cons_append, labels_label, labels_append, labels_instruction, labels_nil,
        List.append_nil, List.mem_cons] at hmem
      rcases hmem with hmem | hmem
      · cases hmem
      · cases hmain.numbered.isBetween _ hmem

end Parameters

end StackCompiler
