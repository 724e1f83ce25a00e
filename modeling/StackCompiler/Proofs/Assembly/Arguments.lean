import StackCompiler.Proofs.Assembly.Calls
import StackCompiler.Proofs.Assembly.Emission
import StackCompiler.Proofs.Assembly.Placement

/-!
# Arguments and parameters

A call computes a value for each item of its arguments that is not empty, and a function takes one
value off the stack for each of its parameters.  Verification compares the number of items with the
number of parameters of the first definition that it meets.  So if no function is defined twice in
a tree, then the arguments of all calls fit exactly if no call has an empty item among them.
-/

namespace StackCompiler

/-! ### Calls and definitions that verification meets -/

namespace Shape

theorem collect_left_subset {α : Type} (f : NodeKind → Shape → Shape → List α) (kind : NodeKind)
    (left right : Shape) :
  left.collect f ⊆ (node kind left right).collect f
  := List.subset_append_of_subset_right _ (List.subset_append_left _ _)

theorem collect_right_subset {α : Type} (f : NodeKind → Shape → Shape → List α) (kind : NodeKind)
    (left right : Shape) :
  right.collect f ⊆ (node kind left right).collect f
  := List.subset_append_of_subset_right _ (List.subset_append_right _ _)

/-- What a definition holds on its left is a separator. -/
theorem kind_of_definition {vars funcs : SymbolTable} {index : Nat} {kind : NodeKind}
    {body parameters right : Shape}
    (h : nodeFindings vars funcs (.function index) (node kind body parameters) right = []) :
  kind = .separator
  := by
  have hkind := (List.append_eq_nil_iff.mp h).2
  split at hkind
  · rename_i hseparator
    simpa [isPresent, kind?] using hseparator
  · cases hkind

end Shape

namespace Unfolding

theorem length_items_shape (u : Unfolding) :
  u.shape.items.length = u.items.length
  := by
  induction u with
  | absent | dangling id | cut id => rfl
  | node id kind left right ihl ihr => apply congrArg Nat.succ ihr

/-- What is met in a part is met in the whole. -/
theorem collect_shape_subset {α : Type} (f : NodeKind → Shape → Shape → List α) {u v : Unfolding}
    (h : v.Part u) :
  v.shape.collect f ⊆ u.shape.collect f
  := by
  induction h with
  | refl => exact List.Subset.refl _
  | left id kind right h ih => exact List.Subset.trans ih (Shape.collect_left_subset _ _ _ _)
  | right id kind left h ih => exact List.Subset.trans ih (Shape.collect_right_subset _ _ _ _)

/-- The calls that have code are among those that verification meets. -/
theorem mem_collect_of_mem_programCalls {u : Unfolding} {call : Nat × Unfolding}
    (h : call ∈ u.programCalls) :
  (call.1, call.2.items.length) ∈ u.shape.collect Shape.callAt
  := by
  obtain ⟨node, hnode, rfl⟩ := List.mem_map.mp h
  apply collect_shape_subset Shape.callAt (part_of_mem_programCallNodes hnode)
  rw [← length_items_shape]
  apply List.mem_cons_self

/-- The functions along the right links of a tree are among the definitions that verification
meets. -/
theorem mem_collect_of_mem_functions {vars funcs : SymbolTable} {u : Unfolding}
    (hs : u.shape.Flawless vars funcs) {f : Nat × Unfolding × Unfolding} (hf : f ∈ u.functions) :
  (f.1, f.2.2.items.length) ∈ u.shape.collect Shape.definitionAt
  := by
  fun_induction functions u with
  | case1 id index other kind body parameters next ih =>
    obtain ⟨hnode, -, hnext⟩ := hs
    rcases List.mem_cons.mp hf with rfl | hf
    · obtain rfl := Shape.kind_of_definition hnode
      rw [← length_items_shape]
      apply List.mem_cons_self
    · apply Shape.collect_right_subset
      apply ih hnext hf
  | case2 u hu => cases hf

end Unfolding

/-! ### Arguments that fit -/

/-- The call instruction between `before` and `after` is that of the call of the tree at its
place. -/
def Unfolding.IsCallSite (u : Unfolding) (entry : Nat) (code : CallCode)
    (before after : List Line) : Prop :=
  ∃ call, u.programCalls[(callTargets before).length]? = some call
    ∧ Lower.IsCall entry call code ∧ code.StandsBetween before after

/-- Wherever a function is called, the call computes as many values as the function takes off the
stack after its label. -/
def Unfolding.ArgumentsFit (u : Unfolding) (entry : Nat) (code : List Line) : Prop :=
  ∀ index call before after start rest,
    code = before ++ .instruction (.call (.function index)) :: after →
    u.IsCallSite entry call before after →
    code = start ++ .label (.function index) :: rest →
    call.values.length = storesAhead rest

namespace Lower

variable {entry : Nat} {u : Unfolding} {calls : List CallCode} {start stop : Numbering}
  {code : List Line}

/-- Every call instruction in the code of a tree is that of the call at its place. -/
theorem isCallSite_of_program
    (hform : ProgramCode entry (others u).signatures start calls code stop)
    (hcalls : List.Forall₂ (IsCallOf entry) u.programCallNodes calls) {label : Label}
    {before after : List Line} (heq : code = before ++ .instruction (.call label) :: after) :
  ∃ call, u.IsCallSite entry call before after ∧ label = target entry call.index
  := by
  obtain ⟨call, hcall, hlabel, hstands, -⟩ := hform.callSites.sites before label after heq
  obtain ⟨source, hsource, his⟩ := getElem?_of_forall₂ (isCall_programCalls hcalls) hcall
  exact ⟨call, ⟨source, hsource, his, hstands⟩, hlabel⟩

/-- The arguments fit if and only if every call gives a value for each parameter of a function with
its label. -/
theorem argumentsFit_iff
    (hform : ProgramCode entry (others u).signatures start calls code stop)
    (hcalls : List.Forall₂ (IsCallOf entry) u.programCallNodes calls) :
  u.ArgumentsFit entry code
    ↔ ∀ call ∈ u.programCalls, call.1 ≠ entry → ∀ f ∈ (others u).functions, f.1 = call.1 →
        call.2.filledItems.length = f.2.2.items.length
  := by
  have htargets := hform.callSites.targets.trans (map_target_programCalls hcalls)
  constructor
  · intro hfit call hcall hentry f hf hindex
    have hlabel := target_eq_function_iff.mpr ⟨rfl, hentry⟩
    obtain ⟨place, hplace⟩ := List.mem_iff_getElem?.mp hcall
    have htarget : (callTargets code)[place]? = some (.function call.1) := by
      rw [htargets, List.getElem?_map, hplace, Option.map_some, hlabel]
    obtain ⟨before, after, hcode, rfl⟩ := exists_call_of_getElem? htarget
    obtain ⟨site, hsite, -⟩ := isCallSite_of_program hform hcalls hcode
    have hsignature : (f.1, f.2.2.items.length) ∈ (others u).signatures := List.mem_map_of_mem hf
    obtain ⟨start, rest, hcode', hrest⟩ := hform.exists_label hsignature
    rw [hindex, hlabel] at hcode'
    have hlength := hfit call.1 site before after start rest hcode hsite hcode'
    obtain ⟨source, hsource, his, -⟩ := hsite
    obtain rfl := Option.some.inj (hplace.symm.trans hsource)
    rw [his.values.length_eq, hlength, hrest]
  · intro hgiven index site before after start rest hcode hsite hcode'
    obtain ⟨source, hsource, his, -⟩ := hsite
    have htarget := getElem?_callTargets before after (.function index)
    rw [← hcode, htargets, List.getElem?_map, hsource, Option.map_some] at htarget
    obtain ⟨rfl, hentry⟩ := target_eq_function_iff.mp (Option.some.inj htarget)
    obtain ⟨f, hf, hsignature⟩ := List.mem_map.mp (hform.mem_of_label hcode')
    obtain ⟨hindex, hcount⟩ := Prod.mk.inj hsignature
    rw [← his.values.length_eq, ← hcount]
    apply hgiven source (List.mem_of_getElem? hsource) hentry f hf hindex

end Lower

/-- If no function is defined twice, then verification compares the items of a call with the
parameters of the function that is called. -/
theorem Tree.Verified.length_items_eq {t : Tree} {u : Unfolding} (h : t.Verified u)
    (hnodup : ((u.shape.collect Shape.definitionAt).map (·.1)).Nodup) {call : Nat × Unfolding}
    (hcall : call ∈ u.programCalls) {f : Nat × Unfolding × Unfolding} (hf : f ∈ u.functions)
    (hindex : f.1 = call.1) :
  call.2.items.length = f.2.2.items.length
  := by
  have hdefinition := List.mem_of_find?_eq_some
    (h.find?_definition (Unfolding.mem_collect_of_mem_programCalls hcall))
  have hfunction := Unfolding.mem_collect_of_mem_functions h.flawless hf
  have heq := List.inj_on_of_nodup_map hnodup hfunction hdefinition hindex
  apply (Prod.mk.inj heq).2.symm

theorem Unfolding.length_filledItems_eq_iff (u : Unfolding) :
  u.filledItems.length = u.items.length ↔ .absent ∉ u.items
  := by
  rw [filledItems, List.length_filter_eq_length_iff]
  simp only [decide_not, Bool.not_eq_true', decide_eq_false_iff_not]
  constructor
  · intro h hmem
    apply h .absent hmem rfl
  · rintro h _ hmem rfl
    apply h hmem

/-- Every call instruction in the assembly of a tree is that of a call of the tree.  The arguments
of all calls fit if and only if each call gives a value for each parameter of the function; if no
function is defined twice, then this is so if and only if no call has an empty item. -/
theorem compileTree_argumentsFit_iff {t : Tree} {c : Compilation}
    (hcompile : (compileTree t).result = .ok c) :
  ∃ entry code numbering, t.unfolding.functions.head?.map (·.1) = some entry
    ∧ Lower.program t.unfolding {} = .ok (code, numbering)
    ∧ c.assembly = String.join (code.map (·.text ++ "\n"))
    ∧ (∀ label before after, code = before ++ .instruction (.call label) :: after →
        ∃ call, t.unfolding.IsCallSite entry call before after
          ∧ label = Lower.target entry call.index)
    ∧ (t.unfolding.ArgumentsFit entry code
        ↔ ∀ call ∈ t.unfolding.programCalls, call.1 ≠ entry →
            ∀ f ∈ t.unfolding.functions.tail, f.1 = call.1 →
              call.2.filledItems.length = f.2.2.items.length)
    ∧ (((t.unfolding.shape.collect Shape.definitionAt).map (·.1)).Nodup →
        (t.unfolding.ArgumentsFit entry code
          ↔ ∀ call ∈ t.unfolding.programCalls, call.1 ≠ entry →
              call.1 ∈ t.unfolding.functions.tail.map (·.1) → .absent ∉ call.2.items))
  := by
  obtain ⟨hverify, code, numbering, hprogram, hassembly⟩ := compileTree_eq_ok hcompile
  obtain ⟨u, hu⟩ := Tree.verify_eq_empty_iff.mp hverify
  rw [hu.unfolding_eq] at hprogram ⊢
  obtain ⟨entry, body, parameters, calls, hfunctions, hform, hcalls⟩ :=
    Lower.program_form hprogram
  have hhead : u.functions.head?.map (·.1) = some entry := by
    rw [hfunctions, List.head?_cons, Option.map_some]
  have htail : (Lower.others u).functions = u.functions.tail := by
    rw [hfunctions, List.tail_cons]
  have hfit := Lower.argumentsFit_iff hform hcalls
  rw [htail] at hfit
  refine ⟨entry, code, numbering, hhead, hprogram, hassembly, ?_, hfit, ?_⟩
  · intro label before after hcode
    apply Lower.isCallSite_of_program hform hcalls hcode
  · intro hnodup
    have hitems : ∀ call ∈ u.programCalls, ∀ f ∈ u.functions.tail, f.1 = call.1 →
        (call.2.filledItems.length = f.2.2.items.length ↔ .absent ∉ call.2.items) := by
      intro call hcall f hf hindex
      rw [← hu.length_items_eq hnodup hcall (List.mem_of_mem_tail hf) hindex,
        Unfolding.length_filledItems_eq_iff]
    rw [hfit]
    constructor
    · intro hgiven call hcall hentry hmem
      obtain ⟨f, hf, hindex⟩ := List.mem_map.mp hmem
      apply (hitems call hcall f hf hindex).mp
      apply hgiven call hcall hentry f hf hindex
    · intro hfilled call hcall hentry f hf hindex
      apply (hitems call hcall f hf hindex).mpr
      apply hfilled call hcall hentry
      apply List.mem_map.mpr ⟨f, hf, hindex⟩

/-- A tree whose entry calls the function after it with the argument that it takes. -/
def givenArgument : String :=
  "( 6 0 ( 0 23 ( 0 23 ( 6 1 _ ( 0 23 ( 4 5 _ _ ) _ ) ) _ ) _ ) "
    ++ "( 6 1 ( 0 23 _ ( 0 23 ( 5 0 _ _ ) _ ) ) _ ) )"

theorem compileTree_argumentsFit_givenArgument :
  ∃ t c entry code numbering, Tree.read givenArgument = .ok t
    ∧ (compileTree t).result = .ok c ∧ Lower.program t.unfolding {} = .ok (code, numbering)
    ∧ c.assembly = String.join (code.map (·.text ++ "\n"))
    ∧ t.unfolding.ArgumentsFit entry code
  := by
  have hread : (Tree.read givenArgument).toOption.bind
      (fun t => (compileTree t).result.toOption.map fun _ =>
        ((t.unfolding.shape.collect Shape.definitionAt).map (·.1),
          t.unfolding.programCalls.all fun call => .absent ∉ call.2.items))
      = some ([0, 1], true) := by
    decide +kernel
  obtain ⟨t, ht, hcompile⟩ := Option.bind_eq_some_iff.mp hread
  obtain ⟨c, hc, hfound⟩ := Option.map_eq_some_iff.mp hcompile
  obtain ⟨hdefinitions, hfilled⟩ := Prod.mk.inj hfound
  obtain ⟨entry, code, numbering, -, hprogram, hassembly, -, -, hfit⟩ :=
    compileTree_argumentsFit_iff (eq_ok_of_toOption hc)
  refine ⟨t, c, entry, code, numbering, eq_ok_of_toOption ht, eq_ok_of_toOption hc, hprogram,
    hassembly, (hfit ?_).mpr ?_⟩
  · rw [hdefinitions]
    decide
  · intro call hcall hentry hmem
    apply of_decide_eq_true (List.all_eq_true.mp hfilled call hcall)

/-- A tree whose entry calls the function after it, which takes an argument, with an empty item. -/
def emptyArgument : String :=
  "( 6 0 ( 0 23 ( 0 23 ( 6 1 _ ( 0 23 _ _ ) ) _ ) _ ) "
    ++ "( 6 1 ( 0 23 _ ( 0 23 ( 5 0 _ _ ) _ ) ) _ ) )"

/-- Verification counts an empty item as an argument, and no value is computed for it. -/
theorem compileTree_not_argumentsFit_emptyArgument :
  ∃ t c code numbering, Tree.read emptyArgument = .ok t
    ∧ (compileTree t).result = .ok c ∧ Lower.program t.unfolding {} = .ok (code, numbering)
    ∧ c.assembly = String.join (code.map (·.text ++ "\n"))
    ∧ t.unfolding.functions.head?.map (·.1) = some 0 ∧ ¬t.unfolding.ArgumentsFit 0 code
  := by
  have hread : (Tree.read emptyArgument).toOption.bind
      (fun t => (compileTree t).result.toOption.map fun _ =>
        (t.unfolding.functions.map fun f => (f.1, f.2.2.items.length),
          t.unfolding.programCalls.map fun call => (call.1, call.2.filledItems.length)))
      = some ([(0, 0), (1, 1)], [(1, 0)]) := by
    decide +kernel
  obtain ⟨t, ht, hcompile⟩ := Option.bind_eq_some_iff.mp hread
  obtain ⟨c, hc, hfound⟩ := Option.map_eq_some_iff.mp hcompile
  obtain ⟨hfunctions, hcalls⟩ := Prod.mk.inj hfound
  obtain ⟨first, others, hlist, hfirst, hothers⟩ := List.map_eq_cons_iff.mp hfunctions
  obtain ⟨second, rest, rfl, hsecond, -⟩ := List.map_eq_cons_iff.mp hothers
  obtain ⟨call, others, hcalls, hcall, -⟩ := List.map_eq_cons_iff.mp hcalls
  obtain ⟨-, code, numbering, hprogram, hassembly⟩ := compileTree_eq_ok (eq_ok_of_toOption hc)
  obtain ⟨entry, body, parameters, codes, heq, hform, hcodes⟩ := Lower.program_form hprogram
  rw [hlist] at heq
  obtain ⟨rfl, htail⟩ := List.cons.inj heq
  obtain rfl : entry = 0 := (Prod.mk.inj hfirst).1
  refine ⟨t, c, code, numbering, eq_ok_of_toOption ht, eq_ok_of_toOption hc, hprogram, hassembly,
    ?_, ?_⟩
  · rw [hlist]
    rfl
  · intro hfit
    obtain ⟨hindex, hgiven⟩ := Prod.mk.inj hcall
    obtain ⟨hindex', htaken⟩ := Prod.mk.inj hsecond
    have hlength : call.2.filledItems.length = second.2.2.items.length := by
      apply (Lower.argumentsFit_iff hform hcodes).mp hfit call
      · rw [hcalls]
        apply List.mem_cons_self
      · rw [hindex]
        decide
      · rw [← htail]
        apply List.mem_cons_self
      · rw [hindex', hindex]
    rw [hgiven, htaken] at hlength
    cases hlength

end StackCompiler
