import StackCompiler.Proofs.Assembly.Calls
import StackCompiler.Proofs.Assembly.Emission
import StackCompiler.Proofs.Assembly.Heights

/-!
# Closed code

Code is closed if no label stands twice and every label that it jumps to or calls stands in it.
Branches and loops bring their own labels, so the code of a tree is closed exactly if the functions
along the right links from the root have different indices and are all that is called.
Verification does not ask for either: it looks for definitions everywhere in a tree.
-/

namespace StackCompiler

/-- No label stands twice, and every label that an instruction refers to stands once. -/
structure ClosedCode (code : List Line) : Prop where
  nodup : (labels code).Nodup
  targets : ∀ label ∈ jumpTargets code ++ callTargets code, (labels code).count label = 1

instance (code : List Line) : Decidable (ClosedCode code) :=
  decidable_of_iff
    ((labels code).Nodup
      ∧ ∀ label ∈ jumpTargets code ++ callTargets code, (labels code).count label = 1)
    ⟨fun h => ⟨h.1, h.2⟩, fun h => ⟨h.nodup, h.targets⟩⟩

/-- Code is closed exactly if its labels are different and all targets are among them. -/
theorem closedCode_iff {code : List Line} :
  ClosedCode code ↔ (labels code).Nodup ∧ jumpTargets code ++ callTargets code ⊆ labels code
  := by
  constructor
  · intro h
    use h.nodup
    intro label hlabel
    apply List.count_pos_iff.mp
    rw [h.targets label hlabel]
    apply Nat.one_pos
  · rintro ⟨hnodup, htargets⟩
    use hnodup
    intro label hlabel
    apply List.count_eq_one_of_mem hnodup (htargets hlabel)

/-! ### Code that is read back -/

/-- Code that is read back has the same labels. -/
theorem labels_map_reread (code : List Line) :
  labels (code.map Line.reread) = labels code
  := by
  rw [labels, labels, List.filterMap_map]
  congr
  funext line
  cases line <;> rfl

/-- Code that is read back jumps to the same labels. -/
theorem jumpTargets_map_reread (code : List Line) :
  jumpTargets (code.map Line.reread) = jumpTargets code
  := by
  rw [jumpTargets, jumpTargets, List.filterMap_map]
  congr
  funext line
  cases line with
  | label l => rfl
  | instruction i => cases i <;> rfl

/-- Code that is read back calls the same labels. -/
theorem callTargets_map_reread (code : List Line) :
  callTargets (code.map Line.reread) = callTargets code
  := by
  rw [callTargets, callTargets, List.filterMap_map]
  congr
  funext line
  cases line with
  | label l => rfl
  | instruction i => cases i <;> rfl

/-- Reading code back does not change its labels and what it refers to. -/
theorem closedCode_map_reread {code : List Line} :
  ClosedCode (code.map Line.reread) ↔ ClosedCode code
  := by
  rw [closedCode_iff, labels_map_reread, jumpTargets_map_reread, callTargets_map_reread,
    closedCode_iff]

/-! ### Code of a tree -/

/-- The label of a function stands in the code of a program if and only if the function does. -/
theorem ProgramCode.target_mem_labels_iff {entry : Nat} {functions : List (Nat × Nat)}
    {start stop : Numbering} {calls : List CallCode} {code : List Line}
    (h : ProgramCode entry functions start calls code stop) (index : Nat) :
  Lower.target entry index ∈ labels code ↔ index ∈ entry :: functions.map (·.1)
  := by
  obtain ⟨list, hlist, hperm⟩ := h.labels_perm
  rw [hperm.mem_iff, List.mem_append, List.mem_map_of_injective (Lower.target_injective entry)]
  apply or_iff_left
  intro hmem
  apply Lower.not_isBetween_target entry index (hlist.isBetween _ hmem)

/-- The functions with signatures are the functions. -/
theorem Unfolding.map_fst_signatures (u : Unfolding) :
  u.signatures.map (·.1) = u.functions.map (·.1)
  := List.map_map

/-- The code of a tree is closed if and only if its functions have different indices and are all
that is called. -/
theorem Lower.closedCode_iff_of_program {u : Unfolding} {start stop : Numbering} {code : List Line}
    (h : program u start = .ok (code, stop)) :
  ClosedCode code
    ↔ (u.functions.map (·.1)).Nodup ∧ ∀ call ∈ u.programCalls, call.1 ∈ u.functions.map (·.1)
  := by
  obtain ⟨entry, body, parameters, calls, hfunctions, hform, hcalls⟩ := program_form h
  have htargets := hform.callSites.targets.trans (map_target_programCalls hcalls)
  have hindices : entry :: (others u).signatures.map (·.1) = u.functions.map (·.1) := by
    rw [Unfolding.map_fst_signatures, hfunctions, List.map_cons]
  rw [closedCode_iff, hform.nodup_labels_iff, hindices, htargets, List.append_subset]
  apply and_congr_right
  intro hnodup
  constructor
  · rintro ⟨-, hdefined⟩ call hcall
    rw [← hindices, ← hform.target_mem_labels_iff]
    apply hdefined (List.mem_map_of_mem hcall)
  · intro hdefined
    use hform.jumpTargets_subset
    intro label hlabel
    obtain ⟨call, hcall, rfl⟩ := List.mem_map.mp hlabel
    rw [hform.target_mem_labels_iff, hindices]
    apply hdefined call hcall

/-- The assembly of a tree is closed if and only if the functions along the right links from its
root have different indices and are all that is called in their bodies. -/
theorem compileTree_closed_iff {t : Tree} {c : Compilation}
    (hcompile : (compileTree t).result = .ok c) :
  ∃ code, assemble c.assembly = some code
    ∧ (ClosedCode code
        ↔ (t.unfolding.functions.map (·.1)).Nodup
          ∧ ∀ call ∈ t.unfolding.programCalls, call.1 ∈ t.unfolding.functions.map (·.1))
  := by
  obtain ⟨-, code, numbering, hprogram, hassembly⟩ := compileTree_eq_ok hcompile
  use code.map Line.reread
  rw [hassembly, assemble_join]
  use rfl
  rw [closedCode_map_reread]
  apply Lower.closedCode_iff_of_program hprogram

/-- A tree whose entry calls the function that is defined after it. -/
def calledNeighbour : String :=
  "( 6 0 ( 0 23 ( 0 23 ( 6 1 _ _ ) _ ) _ ) ( 6 1 ( 0 23 _ _ ) _ ) )"

/-- The code of a tree with a function that calls its neighbour is closed. -/
theorem compileTree_closed_calledNeighbour :
  ∃ t c code, Tree.read calledNeighbour = .ok t ∧ (compileTree t).result = .ok c
    ∧ assemble c.assembly = some code ∧ ClosedCode code
  := by
  have hread : (Tree.read calledNeighbour).toOption.bind
      (fun t => (compileTree t).result.toOption.map
        fun _ => (t.unfolding.functions.map (·.1), t.unfolding.programCalls.map (·.1)))
      = some ([0, 1], [1]) := by
    decide +kernel
  obtain ⟨t, ht, hcompile⟩ := Option.bind_eq_some_iff.mp hread
  obtain ⟨c, hc, hfound⟩ := Option.map_eq_some_iff.mp hcompile
  obtain ⟨hfunctions, hcalls⟩ := Prod.mk.inj hfound
  obtain ⟨code, hcode, hclosed⟩ := compileTree_closed_iff (eq_ok_of_toOption hc)
  use t, c, code, eq_ok_of_toOption ht, eq_ok_of_toOption hc, hcode
  apply hclosed.mpr
  rw [hfunctions]
  constructor
  · decide
  · intro call hcall
    have hmem := List.mem_map_of_mem (f := (·.1)) hcall
    rw [hcalls, List.mem_singleton] at hmem
    rw [hmem]
    decide

/-- A tree whose entry calls the function that is defined in the second arm of a loop. -/
def strayDefinition : String :=
  "( 6 0 ( 0 23 ( 0 23 ( 6 1 _ _ ) ( 0 23 ( 3 22 ( 4 0 _ _ ) "
    ++ "( 0 23 _ ( 6 1 ( 0 23 _ _ ) _ ) ) ) _ ) ) _ ) _ )"

/-- Verification accepts a definition that has no code, so that a call has no label to go to. -/
theorem compileTree_not_closed_strayDefinition :
  ∃ t c code, Tree.read strayDefinition = .ok t ∧ (compileTree t).result = .ok c
    ∧ assemble c.assembly = some code ∧ ¬ClosedCode code
  := by
  have hread : (Tree.read strayDefinition).toOption.bind
      (fun t => (compileTree t).result.toOption.map
        fun _ => (t.unfolding.functions.map (·.1), t.unfolding.programCalls.map (·.1)))
      = some ([0], [1]) := by
    decide +kernel
  obtain ⟨t, ht, hcompile⟩ := Option.bind_eq_some_iff.mp hread
  obtain ⟨c, hc, hfound⟩ := Option.map_eq_some_iff.mp hcompile
  obtain ⟨hfunctions, hcalls⟩ := Prod.mk.inj hfound
  obtain ⟨-, code, numbering, hprogram, hassembly⟩ := compileTree_eq_ok (eq_ok_of_toOption hc)
  use t, c, code.map Line.reread, eq_ok_of_toOption ht, eq_ok_of_toOption hc
  rw [hassembly, assemble_join, closedCode_map_reread, Lower.closedCode_iff_of_program hprogram,
    hfunctions]
  use rfl
  rintro ⟨-, hdefined⟩
  obtain ⟨call, others, hlist, hindex, -⟩ := List.map_eq_cons_iff.mp hcalls
  have hmem : call.1 ∈ [0] := by
    apply hdefined call
    rw [hlist]
    apply List.mem_cons_self
  rw [hindex] at hmem
  cases List.mem_singleton.mp hmem

end StackCompiler
