import Mathlib.Data.List.Nodup
import StackCompiler.SymbolTable

/-!
# Growing symbol tables

A table that grows keeps its names at their positions, and the names of a table have different
positions.
-/

namespace StackCompiler.SymbolTable

/-- A table keeps all names of another at their positions. -/
def Within (table larger : SymbolTable) : Prop :=
  table.names <+: larger.names

/-- A table that is kept by a kept table is kept. -/
theorem Within.trans {a b c : SymbolTable} (hab : a.Within b) (hbc : b.Within c) :
  a.Within c
  := List.IsPrefix.trans hab hbc

/-- A name is found at its first position. -/
theorem lookup?_eq_some_iff {table : SymbolTable} {name : String} {index : Nat} :
  table.lookup? name = some index ↔ index < table.size ∧ table.names.idxOf name = index
  := List.findIdx?_eq_some_iff_findIdx_eq

/-- A name is not found if and only if it is not in the table. -/
theorem lookup?_eq_none_iff {table : SymbolTable} {name : String} :
  table.lookup? name = none ↔ name ∉ table.names
  := List.idxOf?_eq_none_iff

/-- A name is found if and only if it is in the table. -/
theorem isSome_lookup? {table : SymbolTable} {name : String} :
  (table.lookup? name).isSome ↔ name ∈ table.names
  := by
  rw [lookup?, List.isSome_idxOf?]

/-- The position of a name that is entered is the first place where it stands. -/
theorem intern_fst (table : SymbolTable) (name : String) :
  (table.intern name).1 = table.names.idxOf name
  := by
  cases h : table.lookup? name with
  | none =>
    simp only [intern, h]
    symm
    apply List.idxOf_eq_length (lookup?_eq_none_iff.mp h)
  | some index =>
    simp only [intern, h]
    symm
    apply (lookup?_eq_some_iff.mp h).2

/-- Entering a name keeps the names that were there. -/
theorem within_intern (table : SymbolTable) (name : String) :
  table.Within (table.intern name).2
  := by
  cases h : table.lookup? name with
  | none =>
    simp only [intern, h]
    apply List.prefix_append
  | some index =>
    simp only [intern, h]
    apply List.prefix_rfl

/-- A name that is entered is in the table. -/
theorem mem_intern (table : SymbolTable) (name : String) :
  name ∈ (table.intern name).2.names
  := by
  cases h : table.lookup? name with
  | none => simp [intern, h]
  | some index =>
    simp only [intern, h]
    apply isSome_lookup?.mp
    rw [h, Option.isSome_some]

/-- A name keeps its position when the table grows further. -/
theorem intern_fst_of_within {table larger : SymbolTable} {name : String}
    (h : (table.intern name).2.Within larger) :
  (table.intern name).1 = (larger.intern name).1
  := by
  have hsame : (table.intern name).1 = (table.intern name).2.names.idxOf name := by
    cases hlookup : table.lookup? name with
    | none =>
      have hnot := lookup?_eq_none_iff.mp hlookup
      simp [intern, hlookup, List.idxOf_append_of_notMem hnot, size]
    | some index =>
      simp only [intern, hlookup]
      symm
      apply (lookup?_eq_some_iff.mp hlookup).2
  rw [hsame, intern_fst]
  apply List.IsPrefix.idxOf_eq_of_mem h (table.mem_intern name)

/-- The position of a name is one of the table. -/
theorem containsIndex_intern_fst {table : SymbolTable} {name : String} (h : name ∈ table.names) :
  table.containsIndex (table.intern name).1
  := by
  rw [intern_fst, containsIndex, decide_eq_true_eq]
  apply List.idxOf_lt_length_of_mem h

/-- Names of a table that stand at the same position are the same. -/
theorem intern_fst_inj {table : SymbolTable} {name other : String} (h : name ∈ table.names)
    (heq : (table.intern name).1 = (table.intern other).1) :
  name = other
  := by
  rw [intern_fst, intern_fst] at heq
  apply (List.idxOf_inj h).mp heq

/-! ### One more name -/

/-- The table with one more name. -/
def extend (table : SymbolTable) (name : String) : SymbolTable where
  names := table.names ++ [name]

section Extend

variable (table : SymbolTable) (name : String)

/-- One more name takes one more position. -/
@[simp]
theorem size_extend :
  (table.extend name).size = table.size + 1
  := by
  simp [extend, size]

/-- The new name is found at the new position. -/
theorem resolve?_extend :
  (table.extend name).resolve? table.size = some name
  := by
  simp [extend, resolve?, size]

/-- One more name keeps the names that were there. -/
theorem within_extend :
  table.Within (table.extend name)
  := List.prefix_append _ _

variable {table name}

/-- A new name keeps the names different. -/
theorem nodup_extend (hnodup : table.names.Nodup) (h : name ∉ table.names) :
  (table.extend name).names.Nodup
  := by
  rw [extend, List.nodup_append_comm]
  exact List.nodup_cons.mpr ⟨h, hnodup⟩

/-- A name is entered by adding it at the end, unless it is there. -/
theorem intern_snd :
  (table.intern name).2 = if name ∈ table.names then table else table.extend name
  := by
  cases h : table.lookup? name with
  | none =>
    rw [if_neg (lookup?_eq_none_iff.mp h), intern, h]
    rfl
  | some index =>
    have hmem : name ∈ table.names := isSome_lookup?.mp (by rw [h, Option.isSome_some])
    rw [if_pos hmem, intern, h]

/-- What is handed out for a name is its position. -/
theorem resolve?_intern :
  (table.intern name).2.resolve? (table.intern name).1 = some name
  := by
  have hmem := table.mem_intern name
  rw [intern_fst_of_within List.prefix_rfl, intern_fst, resolve?]
  exact List.getElem?_idxOf hmem

/-- A name keeps its position when the table grows. -/
theorem Within.resolve?_eq_some {larger : SymbolTable} (h : table.Within larger) {index : Nat}
    (hname : table.resolve? index = some name) :
  larger.resolve? index = some name
  := by
  obtain ⟨more, hmore⟩ := h
  obtain ⟨hlt, -⟩ := List.getElem?_eq_some_iff.mp hname
  rw [resolve?, ← hmore, List.getElem?_append_left hlt]
  exact hname

end Extend

end StackCompiler.SymbolTable
