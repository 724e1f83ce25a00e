import StackCompiler.Proofs.Program.Layout
import StackCompiler.Proofs.Program.Tokens

/-!
# The symbol tables of a program

The layout of a program enters its names into the tables in the order in which they stand in the
source.  A table that has all functions already stays as it is.
-/

namespace StackCompiler

namespace SymbolTable

/-- The table with the name of a variable entered. -/
def enterVariable (table : SymbolTable) : TokenKind → SymbolTable
  | .variable name => (table.intern name).2
  | _ => table

/-- The table with the name of a function entered. -/
def enterFunction (table : SymbolTable) : TokenKind → SymbolTable
  | .function name => (table.intern name).2
  | _ => table

/-- A name that is in the table is not entered again. -/
theorem intern_of_mem {table : SymbolTable} {name : String} (h : name ∈ table.names) :
  (table.intern name).2 = table
  := by
  obtain ⟨index, hindex⟩ := Option.isSome_iff_exists.mp (isSome_lookup?.mpr h)
  rw [intern, hindex]

/-- A table with all the function names of the tokens stays as it is when they are entered. -/
theorem foldl_enterFunction {table : SymbolTable} {tokens : List TokenKind}
    (h : ∀ name, .function name ∈ tokens → name ∈ table.names) :
  tokens.foldl enterFunction table = table
  := by
  induction tokens with
  | nil => rfl
  | cons token tokens ih =>
    have hsame : table.enterFunction token = table := by
      unfold enterFunction
      split
      · apply intern_of_mem (h _ List.mem_cons_self)
      · rfl
    rw [List.foldl_cons, hsame]
    apply ih fun name hname => h name (List.mem_cons_of_mem _ hname)

end SymbolTable

namespace Tree

/-- The tables of the second tree are those of the first with the names of the tokens entered. -/
def Enters (t : Tree) (tokens : List TokenKind) (t' : Tree) : Prop :=
  t'.vars = tokens.foldl SymbolTable.enterVariable t.vars
    ∧ t'.funcs = tokens.foldl SymbolTable.enterFunction t.funcs

namespace Enters

variable {t t' t'' : Tree} {tokens tokens' : List TokenKind}

/-- No names are entered where nothing is added. -/
theorem refl (t : Tree) :
  t.Enters [] t
  := ⟨rfl, rfl⟩

/-- The names of one part are entered after those of another. -/
theorem trans (h : t.Enters tokens t') (h' : t'.Enters tokens' t'') :
  t.Enters (tokens ++ tokens') t''
  := by
  constructor
  · rw [List.foldl_append, ← h.1, h'.1]
  · rw [List.foldl_append, ← h.2, h'.2]

/-- A new node enters no names. -/
theorem node (h : t.Enters tokens t') (kind : NodeKind) (left right : Option NodeId) :
  t.Enters tokens (t'.node kind left right).2
  := by
  obtain ⟨hvars, hfuncs⟩ := t'.tables_node kind left right
  rwa [Enters, hvars, hfuncs]

/-- A new chain enters no names. -/
theorem chain (h : t.Enters tokens t') (items : List NodeId) :
  t.Enters tokens (t'.chain items).2
  := by
  obtain ⟨hvars, hfuncs⟩ := t'.tables_chain items
  rwa [Enters, hvars, hfuncs]

end Enters

end Tree

namespace Layout

/-- A variable enters its name. -/
theorem addVariable_enters (name : String) (t : Tree) :
  t.Enters [.variable name] (addVariable name t).2
  := by
  have hentered : t.Enters [.variable name] { t with vars := (t.vars.intern name).2 } := ⟨rfl, rfl⟩
  apply hentered.node

/-- Asking for the position of a function enters its name. -/
theorem functionIndex_enters (name : String) (t : Tree) :
  t.Enters [.function name] (functionIndex name t).2
  := ⟨rfl, rfl⟩

/-- Variables enter their names from left to right. -/
theorem addVariables_enters (names : List String) (t : Tree) :
  t.Enters (names.map .variable) (addVariables names t).2
  := by
  induction names generalizing t with
  | nil => apply Tree.Enters.refl
  | cons name names ih => apply (addVariable_enters name t).trans (ih _)

mutual

/-- An expression enters its names from left to right. -/
theorem addExpr_enters :
  ∀ (e : Expr) (t : Tree), t.Enters e.leaves (addExpr e t).2
  | .number _, t => (Tree.Enters.refl t).node _ _ _
  | .variable name, t => addVariable_enters name t
  | .input target, t => (addVariable_enters target t).node _ _ _
  | .call function arguments, t =>
      (((functionIndex_enters function t).trans (addExprs_enters arguments _)).chain _).node _ _ _
  | .math _ operand, t => (addExpr_enters operand t).node _ _ _
  | .arithmetic _ left right, t =>
      ((addExpr_enters left t).trans (addExpr_enters right _)).node _ _ _
  | .comparison _ left right, t =>
      ((addExpr_enters left t).trans (addExpr_enters right _)).node _ _ _

/-- Expressions enter their names from left to right. -/
theorem addExprs_enters :
  ∀ (es : List Expr) (t : Tree), t.Enters (Expr.leavesOfAll es) (addExprs es t).2
  | [], t => .refl t
  | e :: es, t => (addExpr_enters e t).trans (addExprs_enters es _)

end

mutual

/-- A statement enters its names from left to right, also those of the bodies in it. -/
theorem addStatement_enters :
  ∀ (s : Statement) (t : Tree), t.Enters s.leaves (addStatement s t).2
  | .assign target value, t =>
      ((addVariable_enters target t).trans (addExpr_enters value _)).node _ _ _
  | .branch condition consequence alternative, t => by
      have hfirst := (addStatements_enters consequence (addExpr condition t).2).chain
        (addStatements consequence (addExpr condition t).2).1
      have harms := hfirst.trans (addStatements_enters alternative _)
      exact ((((addExpr_enters condition t).trans harms).chain _).node _ _ _).node _ _ _
  | .loop condition body, t =>
      ((((addExpr_enters condition t).trans (addStatements_enters body _)).chain _).node
        _ _ _).node _ _ _
  | .call function arguments, t => addExpr_enters (.call function arguments) t
  | .ret value, t => (addExpr_enters value t).node _ _ _
  | .output _ value, t => (addExpr_enters value t).node _ _ _
  | .input target, t => (addVariable_enters target t).node _ _ _

/-- Statements enter their names in order. -/
theorem addStatements_enters :
  ∀ (ss : List Statement) (t : Tree),
    t.Enters (Statement.leavesOfAll ss) (addStatements ss t).2
  | [], t => .refl t
  | s :: ss, t => (addStatement_enters s t).trans (addStatements_enters ss _)

end

/-- A function enters its own name, the names of its parameters, and those of its body. -/
theorem addFunction_enters (d : Definition) (t : Tree) :
  t.Enters (.function d.name :: d.leaves) (addFunction d t).2
  := by
  have hparameters := ((functionIndex_enters d.name t).trans
    (addVariables_enters d.parameters _)).chain
      (addVariables d.parameters (functionIndex d.name t).2).1
  have hbody := hparameters.trans (addStatements_enters d.body _)
  rw [List.append_assoc] at hbody
  exact hbody.chain _

/-- Functions enter their names in order. -/
theorem addFunctions_enters (ds : List Definition) (t : Tree) :
  t.Enters (ds.flatMap fun d => .function d.name :: d.leaves) (addFunctions ds t).2
  := by
  induction ds generalizing t with
  | nil => apply Tree.Enters.refl
  | cons d ds ih =>
    rw [List.flatMap_cons]
    apply (addFunction_enters d t).trans (ih _)

/-- Linking functions enters no names. -/
theorem link_enters (functions : List Unlinked) {t t' : Tree} {tokens : List TokenKind}
    (h : t.Enters tokens t') :
  t.Enters tokens (link functions t').2
  := by
  induction functions with
  | nil => apply h
  | cons function functions ih => exact (ih.node _ _ _).node _ _ _

end Layout

/-- The layout of a program enters its names in the order of the source. -/
theorem Program.layout_enters (program : Program) (entry : String) (start : Tree) :
  start.Enters (program.definitions.flatMap fun d => .function d.name :: d.leaves)
    (program.layout entry start)
  := by
  obtain ⟨hvars, hfuncs⟩ := Layout.link_enters
    (Layout.toFront (Layout.addFunctions program.definitions start).1
      (program.entryPosition entry))
    (Layout.addFunctions_enters program.definitions start)
  exact ⟨hvars, hfuncs⟩

end StackCompiler
