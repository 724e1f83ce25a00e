import Mathlib.Computability.StateTransition
import StackCompiler.Proofs.SymbolTable
import StackCompiler.Text.Lines

/-!
# Histories of symbol tables

Whatever is done to a table that was empty once, its names stay different and stay where they are,
so names and positions determine each other.

A table is filled with placeholders by two nested loops: one adds a name for each position that is
missing, the other adds underscores to a name while it is taken.  The inner loop ends because names
with different numbers of underscores differ and the table holds finitely many of them.
-/

namespace StackCompiler.SymbolTable

/-! ### Underscores -/

/-- A name with underscores behind it. -/
def underscored (name : String) (count : Nat) : String :=
  name ++ Text.repeated count '_'

theorem toList_underscored (name : String) (count : Nat) :
  (underscored name count).toList = name.toList ++ List.replicate count '_'
  := by
  simp [underscored, Text.repeated]

@[simp]
theorem underscored_zero (name : String) :
  underscored name 0 = name
  := by
  apply String.toList_injective
  simp [toList_underscored]

@[simp]
theorem underscored_push (name : String) (count : Nat) :
  underscored (name.push '_') count = underscored name (count + 1)
  := by
  apply String.toList_injective
  simp [toList_underscored, List.replicate_succ]

theorem underscored_injective (name : String) :
  Function.Injective (underscored name)
  := by
  intro count other h
  have hlength := congrArg (fun s => s.toList.length) h
  simpa [toList_underscored] using hlength

/-- Placeholders of different positions differ, however many underscores they have. -/
theorem eq_of_underscored_toString_eq {stem : String} {m n count other : Nat}
    (h : underscored (stem ++ toString m) count = underscored (stem ++ toString n) other) :
  m = n
  := by
  have hdigits : ∀ k, (Nat.toDigits 10 k).filter Char.isDigit = Nat.toDigits 10 k := fun k =>
    List.filter_eq_self.mpr fun c => Nat.isDigit_of_mem_toDigits (by decide) (by decide)
  have hchars : Nat.toDigits 10 m ++ List.replicate count '_'
      = Nat.toDigits 10 n ++ List.replicate other '_' := by
    have hlists := congrArg String.toList h
    simpa [toList_underscored, Nat.toString_eq_ofList_toDigits] using hlists
  -- An underscore is no digit.
  have hsame : Nat.toDigits 10 m = Nat.toDigits 10 n := by
    have hfiltered := congrArg (List.filter Char.isDigit) hchars
    have hunderscore : Char.isDigit '_' = false := rfl
    simpa [List.filter_append, hdigits, hunderscore] using hfiltered
  rw [← @Nat.ofDigitChars_ten_toDigits m, hsame, Nat.ofDigitChars_ten_toDigits]

/-! ### Free names -/

/-- A name is free with so many underscores, and taken with fewer. -/
structure FirstFree (names : List String) (name : String) (count : Nat) : Prop where
  taken : ∀ fewer < count, underscored name fewer ∈ names
  free : underscored name count ∉ names

/-- No more names can be taken than there are. -/
theorem le_length_of_taken {names : List String} {name : String} {count : Nat}
    (h : ∀ fewer < count, underscored name fewer ∈ names) :
  count ≤ names.length
  := by
  have hnodup : ((List.range count).map (underscored name)).Nodup :=
    List.nodup_range.map (underscored_injective name)
  have hsub : (List.range count).map (underscored name) ⊆ names := by
    intro taken hmem
    obtain ⟨fewer, hfewer, rfl⟩ := List.mem_map.mp hmem
    exact h fewer (List.mem_range.mp hfewer)
  simpa using (hnodup.subperm hsub).length_le

namespace FirstFree

variable {names : List String} {name : String} {count : Nat}

theorem unique (h : FirstFree names name count) {other : Nat} (h' : FirstFree names name other) :
  count = other
  := by
  rcases Nat.lt_trichotomy count other with hlt | heq | hlt
  · cases h.free (h'.taken count hlt)
  · exact heq
  · cases h'.free (h.taken other hlt)

/-- A name that does not get in the way makes no difference. -/
theorem of_append {new : String} (h : FirstFree names name count)
    (hnew : ∀ k, underscored name k ≠ new) :
  FirstFree (names ++ [new]) name count
  where
  taken := fun fewer hfewer => List.mem_append_left _ (h.taken fewer hfewer)
  free := by
    rw [List.mem_append, List.mem_singleton, not_or]
    exact ⟨h.free, hnew count⟩

end FirstFree

/-- The search stops at the first name that is free, or with all underscores that it may add. -/
theorem exists_freshName_eq (taken : String → Bool) (name : String) (limit : Nat) :
  ∃ count ≤ limit, freshName taken name limit = underscored name count
    ∧ (∀ fewer < count, taken (underscored name fewer))
    ∧ (count < limit → ¬ taken (underscored name count))
  := by
  induction limit generalizing name with
  | zero => exact ⟨0, le_rfl, by simp [freshName], by simp, by simp⟩
  | succ limit ih =>
    rw [freshName]
    split
    · rename_i htaken
      obtain ⟨count, hle, hname, hfewer, hstop⟩ := ih (name.push '_')
      refine ⟨count + 1, Nat.succ_le_succ hle, by rw [hname, underscored_push], ?_, ?_⟩
      · intro fewer hlt
        cases fewer with
        | zero => simpa using htaken
        | succ fewer => simpa using hfewer fewer (Nat.lt_of_succ_lt_succ hlt)
      · simpa using hstop
    · rename_i hfree
      exact ⟨0, Nat.zero_le _, by simp, by simp, fun _ => by simpa using hfree⟩

/-- A search with as many underscores as there are names finds a name that is free. -/
theorem exists_firstFree (names : List String) (name : String) :
  ∃ count, FirstFree names name count
    ∧ freshName (Std.TreeSet.ofList names compare).contains name names.length
      = underscored name count
  := by
  obtain ⟨count, hle, hname, hfewer, hstop⟩ :=
    exists_freshName_eq (Std.TreeSet.ofList names compare).contains name names.length
  simp only [Std.TreeSet.contains_ofList, List.contains_iff_mem] at hfewer hstop
  refine ⟨count, ⟨hfewer, ?_⟩, hname⟩
  intro hmem
  rcases Nat.lt_or_eq_of_le hle with hlt | rfl
  · exact hstop hlt hmem
  · -- All names are taken already, so one more cannot be.
    have htoo : names.length + 1 ≤ names.length := by
      apply le_length_of_taken
      intro fewer hlt
      rcases Nat.lt_succ_iff_lt_or_eq.mp hlt with hlt | rfl
      · exact hfewer fewer hlt
      · exact hmem
    omega

/-! ### Filling a table -/

/-- One table comes from another by adding a placeholder for each position up to `index`, with the
least number of underscores that makes it free. -/
inductive Fills (index : Nat) (stem : String) : SymbolTable → SymbolTable → Prop where
  | done {table : SymbolTable} (hsize : index < table.size) : Fills index stem table table
  | add {table final : SymbolTable} {count : Nat} (hsize : table.size ≤ index)
      (hfree : FirstFree table.names (stem ++ toString table.size) count)
      (hrest : Fills index stem
        (table.extend (underscored (stem ++ toString table.size) count)) final) :
      Fills index stem table final

/-- The placeholder for a position of a table with the given names. -/
def placeholder (names : List String) (stem : String) (n : Nat) : String :=
  freshName (Std.TreeSet.ofList names compare).contains (stem ++ toString n) names.length

/-- A placeholder for another position does not get in the way. -/
theorem placeholder_append {names : List String} {stem : String} {m n count : Nat} (h : m ≠ n) :
  placeholder (names ++ [underscored (stem ++ toString m) count]) stem n = placeholder names stem n
  := by
  obtain ⟨_, hfree, hname⟩ := exists_firstFree names (stem ++ toString n)
  obtain ⟨_, hfree', hname'⟩ :=
    exists_firstFree (names ++ [underscored (stem ++ toString m) count]) (stem ++ toString n)
  have hsame := hfree'.unique
    (hfree.of_append fun k heq => h (eq_of_underscored_toString_eq heq).symm)
  rw [placeholder, placeholder, hname, hname', hsame]

theorem reserveThrough_of_lt {table : SymbolTable} {index : Nat} (h : index < table.size)
    (stem : String) :
  table.reserveThrough index stem = table
  := if_pos h

/-- Placeholders that are added together are those that are added one after the other. -/
theorem reserveThrough_extend {table : SymbolTable} {index count : Nat} {stem : String}
    (h : table.size ≤ index) (hfree : FirstFree table.names (stem ++ toString table.size) count) :
  (table.extend (underscored (stem ++ toString table.size) count)).reserveThrough index stem
    = table.reserveThrough index stem
  := by
  obtain ⟨_, hfree', hname⟩ := exists_firstFree table.names (stem ++ toString table.size)
  obtain rfl := hfree.unique hfree'
  have hfirst : placeholder table.names stem table.size
      = underscored (stem ++ toString table.size) count := hname
  have hall : ∀ table : SymbolTable, table.size ≤ index + 1 → table.reserveThrough index stem
      = { names := table.names ++ (List.range' table.size (index + 1 - table.size)).map
            (placeholder table.names stem) } := by
    intro table hsize
    rcases Nat.lt_or_eq_of_le hsize with hlt | heq
    · exact if_neg (by omega)
    · rw [reserveThrough_of_lt (by omega), heq, Nat.sub_self]
      simp
  have hcount : index + 1 - table.size = index + 1 - (table.size + 1) + 1 := by omega
  have hothers : (List.range' (table.size + 1) (index + 1 - (table.size + 1))).map
        (placeholder (table.extend (underscored (stem ++ toString table.size) count)).names stem)
      = (List.range' (table.size + 1) (index + 1 - (table.size + 1))).map
        (placeholder table.names stem) := by
    apply List.map_congr_left
    intro n hn
    apply placeholder_append
    have hlt := (List.mem_range'_1.mp hn).1
    omega
  rw [hall table (by omega), hall _ (by rw [size_extend]; omega), size_extend, hothers, hcount,
    List.range'_succ, List.map_cons, hfirst]
  simp [extend]

/-- Filling a table adds one placeholder after the other. -/
theorem fills_reserveThrough (table : SymbolTable) (index : Nat) (stem : String) :
  Fills index stem table (table.reserveThrough index stem)
  := by
  induction hleft : index + 1 - table.size generalizing table with
  | zero =>
    have hlt : index < table.size := by omega
    rw [reserveThrough_of_lt hlt]
    exact .done hlt
  | succ left ih =>
    have hle : table.size ≤ index := by omega
    obtain ⟨count, hfree, -⟩ := exists_firstFree table.names (stem ++ toString table.size)
    rw [← reserveThrough_extend hle hfree]
    apply Fills.add hle hfree
    apply ih
    rw [size_extend]
    omega

namespace Fills

variable {index : Nat} {stem : String} {table final : SymbolTable}

theorem within (h : Fills index stem table final) :
  table.Within final
  := by
  induction h with
  | done => apply List.prefix_rfl
  | add hsize hfree hrest ih => apply Within.trans (within_extend _ _) ih

theorem nodup (h : Fills index stem table final) (hnodup : table.names.Nodup) :
  final.names.Nodup
  := by
  induction h with
  | done => exact hnodup
  | add hsize hfree hrest ih => exact ih (nodup_extend hnodup hfree.free)

theorem size_eq (h : Fills index stem table final) :
  final.size = max table.size (index + 1)
  := by
  induction h with
  | done hsize => omega
  | add hsize hfree hrest ih =>
    rw [ih, size_extend]
    omega

/-- Each new name is a placeholder for its position. -/
theorem resolve?_eq (h : Fills index stem table final) {n : Nat} (hnew : table.size ≤ n)
    (hle : n ≤ index) :
  ∃ count, final.resolve? n = some (underscored (stem ++ toString n) count)
  := by
  induction h with
  | done hsize => omega
  | @add table final count hsize hfree hrest ih =>
    rcases Nat.lt_or_eq_of_le hnew with hlt | rfl
    · apply ih
      rwa [size_extend]
    · exact ⟨count, hrest.within.resolve?_eq_some (table.resolve?_extend _)⟩

end Fills

/-! ### The loops -/

/-- The state of the loops that fill a table: the table so far, and the name for the next position
while it is being looked for. -/
structure Filling where
  table : SymbolTable
  candidate : Option String := none

/-- One turn of the loops; there is none when the position `index` has a name. -/
def Filling.step (index : Nat) (stem : String) (filling : Filling) : Option Filling :=
  match filling with
  | { table, candidate := none } =>
    if table.size ≤ index then some { table, candidate := some (stem ++ toString table.size) }
    else none
  | { table, candidate := some name } =>
    if (table.lookup? name).isSome then some { table, candidate := some (name.push '_') }
    else some { table := (table.intern name).2 }

namespace Filling

open StateTransition

variable {index : Nat} {stem : String}

/-- The inner loop adds underscores up to the first name that is free, and the name is entered. -/
theorem reaches_extend {table : SymbolTable} {name : String} {count : Nat}
    (h : FirstFree table.names name count) :
  Reaches (step index stem) { table, candidate := some name }
    { table := table.extend (underscored name count) }
  := by
  induction count generalizing name with
  | zero =>
    have hfree : name ∉ table.names := by simpa using h.free
    have hstep : step index stem { table, candidate := some name }
        = some { table := table.extend name } := by
      rw [step, lookup?_eq_none_iff.mpr hfree, intern_snd, if_neg hfree]
      rfl
    rw [underscored_zero]
    exact .single hstep
  | succ count ih =>
    have htaken : name ∈ table.names := by simpa using h.taken 0 (Nat.succ_pos _)
    have hstep : step index stem { table, candidate := some name }
        = some { table, candidate := some (name.push '_') } := by
      rw [step, if_pos (isSome_lookup?.mpr htaken)]
    have hnext : FirstFree table.names (name.push '_') count := by
      constructor
      · intro fewer hfewer
        simpa using h.taken (fewer + 1) (Nat.succ_lt_succ hfewer)
      · simpa using h.free
    rw [← underscored_push]
    exact .head hstep (ih hnext)

/-- The loops end with the table filled. -/
theorem eval_of_fills {table final : SymbolTable} (h : Fills index stem table final) :
  eval (step index stem) { table } = Part.some { table := final }
  := by
  induction h with
  | done hsize =>
    apply Part.eq_some_iff.mpr
    apply mem_eval.mpr
    exact ⟨.refl, if_neg (Nat.not_le_of_lt hsize)⟩
  | add hsize hfree hrest ih =>
    rw [← ih]
    apply reaches_eval
    exact .head (if_pos hsize) (reaches_extend hfree)

end Filling

/-! ### Histories -/

/-- What is done to a table: a name is entered, positions are filled with placeholders, or the table
is replaced by a copy into which its names are entered one after the other. -/
inductive Operation where
  | intern (name : String)
  | reserveThrough (index : Nat) (stem : String)
  | copy

/-- The table after an operation. -/
def Operation.apply (table : SymbolTable) : Operation → SymbolTable
  | .intern name => (table.intern name).2
  | .reserveThrough index stem => table.reserveThrough index stem
  | .copy => ofNames table.names

/-- The table after operations that begin with the empty table. -/
def history (operations : List Operation) : SymbolTable :=
  operations.foldl Operation.apply {}

/-- Different names are entered as they are. -/
theorem foldl_intern {table : SymbolTable} {names : List String}
    (h : (table.names ++ names).Nodup) :
  names.foldl (fun table name => (table.intern name).2) table
    = { names := table.names ++ names }
  := by
  induction names generalizing table with
  | nil => rw [List.foldl_nil, List.append_nil]
  | cons name names ih =>
    have hnew : name ∉ table.names := fun hmem =>
      List.disjoint_of_nodup_append h hmem List.mem_cons_self
    rw [List.append_cons] at h ⊢
    rw [List.foldl_cons, intern_snd, if_neg hnew]
    exact ih h

/-- A copy of a table is the same table. -/
theorem ofNames_names {table : SymbolTable} (h : table.names.Nodup) :
  ofNames table.names = table
  := foldl_intern h

namespace Operation

/-- An operation keeps the names different and at their positions. -/
theorem apply_keeps {table : SymbolTable} (h : table.names.Nodup) (operation : Operation) :
  (operation.apply table).names.Nodup ∧ table.Within (operation.apply table)
  := by
  cases operation with
  | intern name =>
    rw [apply, intern_snd]
    split
    · exact ⟨h, List.prefix_rfl⟩
    · rename_i hnew
      exact ⟨nodup_extend h hnew, table.within_extend name⟩
  | reserveThrough index stem =>
    have hfills := table.fills_reserveThrough index stem
    exact ⟨hfills.nodup h, hfills.within⟩
  | copy =>
    rw [apply, ofNames_names h]
    exact ⟨h, List.prefix_rfl⟩

theorem foldl_apply_keeps {table : SymbolTable} (h : table.names.Nodup)
    (operations : List Operation) :
  (operations.foldl apply table).names.Nodup ∧ table.Within (operations.foldl apply table)
  := by
  induction operations generalizing table with
  | nil => exact ⟨h, List.prefix_rfl⟩
  | cons operation operations ih =>
    obtain ⟨hnodup, hwithin⟩ := operation.apply_keeps h
    obtain ⟨hnodup', hwithin'⟩ := ih hnodup
    exact ⟨hnodup', hwithin.trans hwithin'⟩

end Operation

theorem nodup_history (operations : List Operation) :
  (history operations).names.Nodup
  := (Operation.foldl_apply_keeps List.nodup_nil operations).1

theorem within_history (operations later : List Operation) :
  (history operations).Within (history (operations ++ later))
  := by
  rw [history, history, List.foldl_append]
  exact (Operation.foldl_apply_keeps (nodup_history operations) later).2

/-- A name of a table without repetition and its position determine each other. -/
theorem lookup?_eq_some_iff_resolve? {table : SymbolTable} (h : table.names.Nodup) {name : String}
    {index : Nat} :
  table.lookup? name = some index ↔ table.resolve? index = some name
  := by
  rw [lookup?_eq_some_iff, resolve?, List.getElem?_eq_some_iff]
  constructor
  · rintro ⟨hlt, rfl⟩
    exact ⟨hlt, List.getElem_idxOf hlt⟩
  · rintro ⟨hlt, rfl⟩
    exact ⟨hlt, h.idxOf_getElem index hlt⟩

theorem history_concat (operations : List Operation) (operation : Operation) :
  history (operations ++ [operation]) = operation.apply (history operations)
  := by
  rw [history, List.foldl_concat]
  rfl

/-- After any operations on the empty table, the names are different, each name and its position
determine each other, exactly the positions below the size have names, what is handed out for a name
is its position, and no later operation changes the name of a position.  Filling with placeholders
always ends, with a name for each missing position: the stem, the position, and underscores. -/
theorem history_faithful (operations : List Operation) :
  (history operations).names.Nodup
    ∧ (∀ name index, (history operations).lookup? name = some index
        ↔ (history operations).resolve? index = some name)
    ∧ (∀ index, ((history operations).resolve? index).isSome ↔ index < (history operations).size)
    ∧ (∀ name, (history (operations ++ [.intern name])).resolve?
        ((history operations).intern name).1 = some name)
    ∧ (∀ later index name, (history operations).resolve? index = some name →
        (history (operations ++ later)).resolve? index = some name)
    ∧ ∀ index stem,
        StateTransition.eval (Filling.step index stem) { table := history operations }
            = Part.some { table := history (operations ++ [.reserveThrough index stem]) }
          ∧ (history (operations ++ [.reserveThrough index stem])).size
            = max (history operations).size (index + 1)
          ∧ ∀ n, (history operations).size ≤ n → n ≤ index →
              ∃ count, (history (operations ++ [.reserveThrough index stem])).resolve? n
                = some (stem ++ toString n ++ Text.repeated count '_')
  := by
  have hnodup := nodup_history operations
  refine ⟨hnodup, fun _ _ => lookup?_eq_some_iff_resolve? hnodup, ?_, ?_, ?_, ?_⟩
  · intro index
    simp [resolve?, size]
  · intro name
    rw [history_concat]
    apply resolve?_intern
  · intro later index name hname
    exact (within_history operations later).resolve?_eq_some hname
  · intro index stem
    have hfills := (history operations).fills_reserveThrough index stem
    rw [history_concat]
    exact ⟨Filling.eval_of_fills hfills, hfills.size_eq,
      fun n hnew hle => hfills.resolve?_eq hnew hle⟩

/-- Two names that stand in the way of placeholders. -/
def takenNames : List Operation :=
  [.intern "var2", .intern "var2_", .copy]

/-- The third position gets two underscores, and the names in the way stay where they are. -/
theorem history_faithful_takenNames :
  (history takenNames).size = 2
    ∧ (history takenNames).resolve? 1 = some "var2_"
    ∧ (history (takenNames ++ [.reserveThrough 3 "var"])).resolve? 1 = some "var2_"
    ∧ (∃ count, (history (takenNames ++ [.reserveThrough 3 "var"])).resolve? 2
        = some ("var" ++ toString 2 ++ Text.repeated count '_'))
    ∧ (history (takenNames ++ [.reserveThrough 3 "var"])).names
      = ["var2", "var2_", "var2__", "var3"]
  := by
  obtain ⟨-, -, -, -, hkept, hfilled⟩ := history_faithful takenNames
  have hsize : (history takenNames).size = 2 := by decide
  have htaken : (history takenNames).resolve? 1 = some "var2_" := by decide
  obtain ⟨-, -, hplaceholder⟩ := hfilled 3 "var"
  exact ⟨hsize, htaken, hkept [.reserveThrough 3 "var"] 1 "var2_" htaken,
    hplaceholder 2 hsize.le (by decide), by decide +kernel⟩

end StackCompiler.SymbolTable
