import Mathlib.Data.List.Nodup
import StackCompiler.Proofs.Assembly.Forms
import StackCompiler.Proofs.Execution.Machine

/-!
# Labels

Branches and loops are numbered in the order in which they are met, so every label of the code of a
program stands only once if its functions have different indices.
-/

namespace StackCompiler

/-- The labels that stand in the code. -/
def labels (code : List Line) : List Label :=
  code.filterMap fun
    | .label label => some label
    | .instruction _ => none

@[simp]
theorem labels_nil :
  labels [] = []
  := rfl

@[simp]
theorem labels_instruction (i : Instruction) (code : List Line) :
  labels (.instruction i :: code) = labels code
  := rfl

@[simp]
theorem labels_label (label : Label) (code : List Line) :
  labels (.label label :: code) = label :: labels code
  := rfl

/-- The labels of one piece of code come before those of the next one. -/
@[simp]
theorem labels_append (code code' : List Line) :
  labels (code ++ code') = labels code ++ labels code'
  := List.filterMap_append

/-- Instructions have no labels. -/
@[simp]
theorem labels_map_instruction {α : Type} (f : α → Instruction) (list : List α) :
  labels (list.map fun a => .instruction (f a)) = []
  := by
  induction list with
  | nil => rfl
  | cons a list ih => exact ih

/-- Arguments without labels make code without labels. -/
theorem labels_arguments {arguments : List (List CallCode × List Line)}
    (h : ∀ argument ∈ arguments, labels argument.2 = []) :
  labels (arguments.map (·.2)).flatten = []
  := by
  induction arguments with
  | nil => rfl
  | cons argument arguments ih =>
    obtain ⟨hfirst, hothers⟩ := List.forall_mem_cons.mp h
    rw [List.map_cons, List.flatten_cons, labels_append, hfirst, ih hothers, List.nil_append]

/-- Nothing comes after a label that is not there. -/
theorem linesAfter_eq_none {label : Label} {code : List Line} (h : label ∉ labels code) :
  linesAfter label code = none
  := by
  induction code with
  | nil => rfl
  | cons line code ih =>
    cases line with
    | instruction i => simp [linesAfter, ih h]
    | label other =>
      obtain ⟨hne, hcode⟩ := not_or.mp (mt List.mem_cons.mpr h)
      simp [linesAfter, ih hcode, Ne.symm hne]

/-- The lines after a label that stands only once. -/
theorem linesAfter_of_suffix {label : Label} {code ahead : List Line} (hnodup : (labels code).Nodup)
    (h : .label label :: ahead <:+ code) :
  linesAfter label code = some ahead
  := by
  obtain ⟨before, rfl⟩ := h
  induction before with
  | nil =>
    rw [List.nil_append, labels_label] at hnodup
    simp [linesAfter, linesAfter_eq_none (List.nodup_cons.mp hnodup).1]
  | cons line before ih =>
    have htail : (labels (before ++ .label label :: ahead)).Nodup := by
      cases line with
      | instruction i => apply hnodup
      | label other => apply (List.nodup_cons.mp hnodup).2
    simp [linesAfter, ih htail]

namespace Lower

/-- The entry has the label of the main program. -/
@[simp]
theorem target_self (entry : Nat) :
  target entry entry = .main
  := if_pos rfl

/-- Different functions have different labels. -/
theorem target_injective (entry : Nat) :
  Function.Injective (target entry)
  := by
  intro index index' heq
  unfold target at heq
  split at heq <;> split at heq <;> cases heq
  · subst_vars
    rfl
  · rfl

/-- A function has the label with its index unless it is the entry. -/
theorem target_eq_function_iff {entry index other : Nat} :
  target entry index = .function other ↔ index = other ∧ index ≠ entry
  := by
  unfold target
  split
  · simp_all
  · simp_all

end Lower

/-! ### Numbered labels -/

/-- The number of a branch or a loop is one that is taken between two numberings. -/
def Label.IsBetween (start stop : Numbering) : Label → Prop
  | .branchFalse number => start.branches ≤ number ∧ number < stop.branches
  | .branchTrue number => start.branches ≤ number ∧ number < stop.branches
  | .loopTrue number => start.loops ≤ number ∧ number < stop.loops
  | .loopFalse number => start.loops ≤ number ∧ number < stop.loops
  | .main => False
  | .function _ => False

/-- The label of a function is not that of a branch or a loop. -/
theorem Lower.not_isBetween_target {start stop : Numbering} (entry index : Nat) :
  ¬(target entry index).IsBetween start stop
  := by
  unfold target
  split <;> exact id

/-- Different labels whose numbers are taken between two numberings. -/
structure Numbered (start stop : Numbering) (list : List Label) : Prop where
  branches_le : start.branches ≤ stop.branches
  loops_le : start.loops ≤ stop.loops
  nodup : list.Nodup
  isBetween : ∀ label ∈ list, label.IsBetween start stop

namespace Numbered

variable {start middle stop : Numbering} {list list' : List Label}

/-- No label takes no number. -/
theorem nil (start : Numbering) :
  Numbered start start []
  := ⟨Nat.le_refl _, Nat.le_refl _, List.nodup_nil, nofun⟩

/-- The order of the labels does not matter. -/
theorem perm (h : Numbered start stop list) (hperm : list'.Perm list) :
  Numbered start stop list'
  := by
  constructor
  · apply h.branches_le
  · apply h.loops_le
  · apply hperm.nodup_iff.mpr h.nodup
  · intro label hlabel
    apply h.isBetween label (hperm.mem_iff.mp hlabel)

/-- Numbers that are taken later are different. -/
theorem append (h : Numbered start middle list) (h' : Numbered middle stop list') :
  Numbered start stop (list ++ list')
  := by
  obtain ⟨hbranches, hloops, hnodup, hbetween⟩ := h
  obtain ⟨hbranches', hloops', hnodup', hbetween'⟩ := h'
  constructor
  · apply Nat.le_trans hbranches hbranches'
  · apply Nat.le_trans hloops hloops'
  · apply List.nodup_append.mpr
    use hnodup, hnodup'
    rintro label hlabel _ hlabel' rfl
    have hearly := hbetween label hlabel
    have hlate := hbetween' label hlabel'
    cases label <;> simp only [Label.IsBetween] at hearly hlate <;> omega
  · intro label hlabel
    rcases List.mem_append.mp hlabel with hlabel | hlabel
    · have hearly := hbetween label hlabel
      cases label <;> simp only [Label.IsBetween] at hearly ⊢ <;> omega
    · have hlate := hbetween' label hlabel
      cases label <;> simp only [Label.IsBetween] at hlate ⊢ <;> omega

/-- A branch has two labels with its number. -/
theorem branch (start : Numbering) :
  Numbered start { start with branches := start.branches + 1 }
    [.branchFalse start.branches, .branchTrue start.branches]
  := by
  constructor <;> simp [Label.IsBetween]

/-- A loop has two labels with its number. -/
theorem loop (start : Numbering) :
  Numbered start { start with loops := start.loops + 1 }
    [.loopTrue start.loops, .loopFalse start.loops]
  := by
  constructor <;> simp [Label.IsBetween]

end Numbered

/-- A call has no labels. -/
theorem labels_call {entry index : Nat} {saved : List Nat} {arguments : List Line}
    (h : labels arguments = []) :
  labels (Lower.call entry index saved arguments) = []
  := by
  simp [Lower.call, h, -List.map_reverse]

/-- A branch has its own labels and those of its arms. -/
theorem labels_branch {number : Nat} {condition consequence alternative : List Line}
    (h : labels condition = []) :
  (labels (Lower.branch number condition consequence alternative)).Perm
    ([.branchFalse number, .branchTrue number] ++ (labels consequence ++ labels alternative))
  := by
  simp only [Lower.branch, labels_append, labels_instruction, labels_label, labels_nil, h,
    List.nil_append, List.append_assoc, List.cons_append]
  apply List.perm_middle.trans
  apply List.Perm.cons
  rw [← List.append_assoc]
  apply List.perm_append_singleton

/-- A loop has its own labels and those of its body. -/
theorem labels_loop {number : Nat} {condition body : List Line} (h : labels condition = []) :
  (labels (Lower.loop number condition body)).Perm
    ([.loopTrue number, .loopFalse number] ++ labels body)
  := by
  simp only [Lower.loop, labels_append, labels_instruction, labels_label, labels_nil, h,
    List.nil_append, List.cons_append]
  apply List.Perm.cons
  apply List.perm_append_singleton

/-! ### The labels of a program -/

section Forms

variable {entry : Nat} {functions : List (Nat × Nat)} {start stop : Numbering}
  {calls : List CallCode} {code : List Line}

/-- No label stands in the code of a value. -/
theorem ValueCode.labels_eq (h : ValueCode entry calls code) :
  labels code = []
  := by
  induction h with
  | push value => rfl
  | load slot => rfl
  | input slot => rfl
  | math op h ih => simp [ih]
  | arithmetic op hleft hright ihl ihr => simp [ihl, ihr]
  | comparison op hleft hright ihl ihr => simp [ihl, ihr]
  | call index saved harguments ih => simp [labels_call (labels_arguments ih)]

/-- The labels in the code of statements are numbered anew. -/
theorem BodyCode.numbered (h : BodyCode entry start calls code stop) :
  Numbered start stop (labels code)
  := by
  induction h with
  | nil start => apply Numbered.nil
  | append h h' ih ih' =>
    rw [labels_append]
    apply ih.append ih'
  | assign start slot hvalue => simp [hvalue.labels_eq, Numbered.nil]
  | call start index saved harguments =>
    rw [labels_call (labels_arguments fun argument hmem => (harguments argument hmem).labels_eq)]
    apply Numbered.nil
  | ret start hvalue => simp [hvalue.labels_eq, Numbered.nil]
  | input start slot => apply Numbered.nil
  | output start op hvalue => simp [hvalue.labels_eq, Numbered.nil]
  | branch htest hconsequence halternative ih ih' =>
    apply Numbered.perm _ (labels_branch htest.labels_eq)
    apply (Numbered.branch _).append (ih.append ih')
  | loop htest hbody ih =>
    apply Numbered.perm _ (labels_loop htest.labels_eq)
    apply (Numbered.loop _).append ih

/-- The labels in the code of functions are those of the functions and numbered ones. -/
theorem FunctionsCode.labels_perm (h : FunctionsCode entry functions start calls code stop) :
  ∃ list, Numbered start stop list
    ∧ (labels code).Perm (functions.map (fun f => Lower.target entry f.1) ++ list)
  := by
  induction h with
  | nil start => exact ⟨[], Numbered.nil start, .refl _⟩
  | @cons functions start middle stop index slots calls calls' body ending code hbody hending hlast
      hcode ih =>
    obtain ⟨list, hlist, hperm⟩ := ih
    use labels body ++ list
    constructor
    · apply hbody.numbered.append hlist
    · have hnone : labels ending = [] := by
        rcases hending with rfl | rfl <;> rfl
      simp only [labels_append, labels_label, labels_map_instruction, hnone, List.append_nil,
        List.cons_append, List.nil_append, List.map_cons]
      apply List.Perm.cons
      apply (hperm.append_left _).trans
      simp only [← List.append_assoc]
      apply List.Perm.append_right
      apply List.perm_append_comm

/-- The labels in the code of a program are those of its functions and numbered ones. -/
theorem ProgramCode.labels_perm (h : ProgramCode entry functions start calls code stop) :
  ∃ list, Numbered start stop list
    ∧ (labels code).Perm ((entry :: functions.map (·.1)).map (Lower.target entry) ++ list)
  := by
  cases h with
  | @mk middle _ calls calls' code main hcode hmain =>
    obtain ⟨list, hlist, hperm⟩ := hcode.labels_perm
    use list ++ labels main, hlist.append hmain.numbered
    simp only [labels_append, labels_instruction, labels_label, labels_nil, List.cons_append,
      List.append_nil, List.map_cons, List.map_map, Lower.target_self]
    apply List.perm_middle.trans
    apply List.Perm.cons
    rw [← List.append_assoc]
    apply hperm.append_right

/-- Every label of a program stands only once if and only if its functions have different
indices. -/
theorem ProgramCode.nodup_labels_iff (h : ProgramCode entry functions start calls code stop) :
  (labels code).Nodup ↔ (entry :: functions.map (·.1)).Nodup
  := by
  obtain ⟨list, hlist, hperm⟩ := h.labels_perm
  rw [hperm.nodup_iff, List.nodup_append, List.nodup_map_iff (Lower.target_injective entry)]
  constructor
  · intro hnodup
    apply hnodup.1
  · intro hnodup
    use hnodup, hlist.nodup
    -- The label of a function is never one of a branch or a loop.
    rintro label hlabel _ hmem rfl
    obtain ⟨index, -, rfl⟩ := List.mem_map.mp hlabel
    apply Lower.not_isBetween_target entry index (hlist.isBetween _ hmem)

end Forms

/-- The label of a definition. -/
def Definition.label (funcs : SymbolTable) (entry : Nat) (d : Definition) : Label :=
  Lower.target entry (funcs.intern d.name).1

/-- Every label of a program stands only once in its code. -/
theorem Definition.nodup_labels_programCode {vars funcs : SymbolTable} {first : Definition}
    {others : List Definition} (hentered : ∀ d ∈ first :: others, d.name ∈ funcs.names)
    (hnodup : ((first :: others).map (·.name)).Nodup) (numbering : Numbering) :
  (labels (Definition.programCode vars funcs first others numbering).1).Nodup
  := by
  obtain ⟨calls, hform, -⟩ := @Definition.programCode_form vars funcs _ first others
    (fun d hd => Definition.collect_body_subset hd) numbering
  have hindices : (funcs.intern first.name).1 :: (others.map (signature funcs)).map (·.1)
      = (first :: others).map fun d => (funcs.intern d.name).1 := by
    rw [List.map_map]
    rfl
  rw [hform.nodup_labels_iff, hindices]
  apply List.Nodup.map_on _ (List.Nodup.of_map _ hnodup)
  intro d hd d' hd' heq
  apply List.inj_on_of_nodup_map hnodup hd hd'
  apply SymbolTable.intern_fst_inj (hentered d hd) heq

end StackCompiler
