import StackCompiler.Proofs.Compile.Outcomes
import StackCompiler.Proofs.Execution.Interpreter

/-!
# Functions of a tree

A tree of definitions starts with the function that runs first, which is its entry.  A function is
found by its index, and the tree tells how many parameters it has and which functions are called.
-/

namespace StackCompiler

namespace Unfolding

/-- The function that runs first. -/
def entry? : Unfolding → Option Nat
  | .node _ (.function index) _ _ => some index
  | _ => none

/-- The number of parameters of a function; a function that is not defined has none. -/
def parameterCount (u : Unfolding) (index : Nat) : Nat :=
  match u.function? index with
  | some (_, parameters) => parameters.items.length
  | none => 0

/-- The functions that are called, each as often as it is called. -/
def called : Unfolding → List Nat
  | .node _ (.function index) .absent right => index :: right.called
  | .node _ _ left right => left.called ++ right.called
  | _ => []

namespace Shows

/-- The functions that are called are seen from the shape. -/
theorem called_eq {u : Unfolding} {s : Shape} (h : u.Shows s) :
  u.called = (s.collect Shape.callAt).map Prod.fst
  := by
  induction h with
  | absent => rfl
  | @node id kind left right l r hleft hright ihl ihr =>
    rw [Shape.collect, List.map_append, List.map_append, ← ihl, ← ihr]
    cases kind with
    | function index =>
      cases hleft with
      | absent => rfl
      | node other hl hr => rfl
    | _ => rfl

/-- A chain has as many items as shapes. -/
theorem length_items {u : Unfolding} {shapes : List Shape} (h : u.Shows (.chain shapes)) :
  u.items.length = shapes.length
  := by
  induction shapes generalizing u with
  | nil =>
    cases h
    rfl
  | cons s shapes ih =>
    cases h with
    | node id hleft hright => rw [Unfolding.items, List.length_cons, List.length_cons, ih hright]

variable {vars funcs : SymbolTable} {ds : List Definition} {u : Unfolding}

/-- The first function is the entry. -/
theorem entry? {first : Definition} (h : u.Shows (Definition.chainShape vars funcs (first :: ds))) :
  u.entry? = some (funcs.intern first.name).1
  := by
  cases h
  rfl

/-- A function that is found in a chain of definitions is one of them. -/
theorem function? (h : u.Shows (Definition.chainShape vars funcs ds)) {index : Nat}
    {body parameters : Unfolding} (hfunction : u.function? index = some (body, parameters)) :
  ∃ d ∈ ds, (funcs.intern d.name).1 = index
    ∧ parameters.Shows (.chain (d.parameters.map (variableShape vars)))
    ∧ body.Shows (.chain (Statement.shapes vars funcs d.body))
  := by
  induction ds generalizing u with
  | nil =>
    cases h
    cases hfunction
  | cons d ds ih =>
    cases h with
    | node id hleft hright =>
      cases hleft with
      | node other hbody hparameters =>
        simp only [Unfolding.function?] at hfunction
        split at hfunction
        · rename_i hindex
          cases hfunction
          use d, List.mem_cons_self, hindex, hparameters, hbody
        · obtain ⟨d', hd', hfound⟩ := ih hright hfunction
          exact ⟨d', List.mem_cons_of_mem _ hd', hfound⟩

/-- A function that is not found in a chain of definitions is none of them. -/
theorem index_ne_of_function?_eq_none (h : u.Shows (Definition.chainShape vars funcs ds))
    {index : Nat} (hfunction : u.function? index = none) :
  ∀ d ∈ ds, (funcs.intern d.name).1 ≠ index
  := by
  induction ds generalizing u with
  | nil => nofun
  | cons d ds ih =>
    cases h with
    | node id hleft hright =>
      cases hleft with
      | node other hbody hparameters =>
        simp only [Unfolding.function?] at hfunction
        split at hfunction
        · cases hfunction
        · rename_i hindex
          intro d' hd'
          rcases List.mem_cons.mp hd' with rfl | hd'
          · apply hindex
          · apply ih hright hfunction d' hd'

end Shows

end Unfolding

namespace Tree.LaysOut

variable {t : Tree} {first : Definition} {others : List Definition}

/-- Definitions of a tree with the same index are the same. -/
theorem eq_of_index_eq (h : t.LaysOut first others) {d d' : Definition} (hd : d ∈ first :: others)
    (hd' : d' ∈ first :: others)
    (hindex : (t.funcs.intern d.name).1 = (t.funcs.intern d'.name).1) :
  d = d'
  := by
  apply List.inj_on_of_nodup_map h.nodup hd hd'
  apply SymbolTable.intern_fst_inj (h.entered d hd) hindex

/-- A function has as many parameters in the tree as in the source. -/
theorem parameterCount_eq (h : t.LaysOut first others) {d : Definition} (hd : d ∈ first :: others) :
  t.unfolding.parameterCount (t.funcs.intern d.name).1 = d.parameters.length
  := by
  unfold Unfolding.parameterCount
  split
  · rename_i hfunction
    obtain ⟨d', hd', hindex, hparameters, -⟩ := h.shows.function? hfunction
    obtain rfl := h.eq_of_index_eq hd' hd hindex
    rw [hparameters.length_items, List.length_map]
  · rename_i hfunction
    cases h.shows.index_ne_of_function?_eq_none hfunction d hd rfl

end Tree.LaysOut

end StackCompiler
