import StackCompiler.Proofs.Assembly.Symbols

/-!
# The entry and the order of functions

The code of a program jumps to the entry, which stands last, after all other functions in the order
of their indices.  Each function ends with a return, so that control never falls from the code of
one function into that of another.
-/

namespace StackCompiler

/-! ### Indices -/

/-- Whether a label is that of a function. -/
def Label.isFunction : Label → Bool
  | .main | .function _ => true
  | _ => false

/-- The label of a branch or a loop is not that of a function. -/
theorem Label.not_isFunction_of_isBetween {start stop : Numbering} {label : Label}
    (h : label.IsBetween start stop) :
  ¬label.isFunction
  := by
  cases label with
  | main => cases h
  | function index => cases h
  | _ => exact Bool.false_ne_true

/-- Calls go to labels of functions. -/
theorem Lower.isFunction_target (entry index : Nat) :
  (target entry index).isFunction
  := by
  unfold target
  split <;> rfl

section Forms

variable {entry : Nat} {functions : List (Nat × Nat)} {start stop : Numbering}
  {calls : List CallCode} {code : List Line}

/-- The code of a body has no labels of functions. -/
theorem BodyCode.filter_isFunction_labels (h : BodyCode entry start calls code stop) :
  (labels code).filter Label.isFunction = []
  := by
  apply List.filter_eq_nil_iff.mpr
  intro label hlabel
  exact Label.not_isFunction_of_isBetween (h.numbered.isBetween label hlabel)

/-- No label of a function stands in the code of another. -/
theorem BodyCode.filter_isFunction_labels_inner (h : BodyCode entry start calls code stop)
    {ending : List Line} (hending : ending = [] ∨ ending = [.instruction .ret])
    (slots : List Nat) :
  (labels (slots.map (fun slot => .instruction (.store slot)) ++ (code ++ ending))).filter
    Label.isFunction = []
  := by
  have hnone : labels ending = [] := by
    rcases hending with rfl | rfl <;> rfl
  rw [labels_append, labels_append, labels_map_instruction, hnone, List.append_nil, List.nil_append,
    h.filter_isFunction_labels]

/-- The code of functions has one label for each of them, in their order. -/
theorem FunctionsCode.filter_isFunction_labels
    (h : FunctionsCode entry functions start calls code stop) :
  (labels code).filter Label.isFunction = functions.map (fun f => Lower.target entry f.1)
  := by
  induction h with
  | nil start => rfl
  | cons index slots hbody hending hlast hcode ih =>
    rw [List.cons_append, labels_append, labels_label, List.filter_append,
      List.filter_cons_of_pos (Lower.isFunction_target entry index),
      hbody.filter_isFunction_labels_inner hending, ih]
    rfl

/-- The code of a program has the label of the entry behind those of the other functions. -/
theorem ProgramCode.filter_isFunction_labels
    (h : ProgramCode entry functions start calls code stop) :
  (labels code).filter Label.isFunction
    = functions.map (fun f => Lower.target entry f.1) ++ [.main]
  := by
  cases h with
  | mk hcode hmain =>
    rw [labels_append, labels_append, labels_label, labels_instruction, List.filter_append,
      List.filter_append, hcode.filter_isFunction_labels, List.filter_cons_of_pos rfl,
      hmain.filter_isFunction_labels]
    apply List.append_nil

end Forms

/-! ### The code of a source -/

end StackCompiler
