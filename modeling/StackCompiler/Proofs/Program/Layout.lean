import StackCompiler.Program.Layout
import StackCompiler.Proofs.SymbolTable
import StackCompiler.Proofs.Tree.Unfolds

/-!
# The shape of a program

The layout of a program is one tree that fills the whole arena, and its shape is that of the
program: every expression, statement and definition becomes a node of its own kind, lists become
chains, and names become their positions in the symbol tables of the finished tree.
-/

namespace StackCompiler

/-! ### Shapes -/

/-- The shape of a variable. -/
def variableShape (vars : SymbolTable) (name : String) : Shape :=
  .node (.variable (vars.intern name).1) .absent .absent

mutual

/-- The shape of an expression, given the symbol tables. -/
def Expr.shape (vars funcs : SymbolTable) : Expr → Shape
  | .number value => .node (.number value) .absent .absent
  | .variable name => variableShape vars name
  | .input target => .node (.unary .input) .absent (variableShape vars target)
  | .call function arguments =>
    .node (.function (funcs.intern function).1) .absent (.chain (Expr.shapes vars funcs arguments))
  | .math op operand => .node (.unary (.math op)) .absent (operand.shape vars funcs)
  | .arithmetic op left right =>
    .node (.binary (.arithmetic op)) (left.shape vars funcs) (right.shape vars funcs)
  | .comparison op left right =>
    .node (.binary (.comparison op)) (left.shape vars funcs) (right.shape vars funcs)

/-- The shapes of several expressions. -/
def Expr.shapes (vars funcs : SymbolTable) : List Expr → List Shape
  | [] => []
  | expr :: exprs => expr.shape vars funcs :: Expr.shapes vars funcs exprs

end

mutual

/-- The shape of a statement, given the symbol tables. -/
def Statement.shape (vars funcs : SymbolTable) : Statement → Shape
  | .assign target value =>
    .node (.binary .assign) (variableShape vars target) (value.shape vars funcs)
  | .branch condition consequence alternative =>
    .node (.control .branch) (condition.shape vars funcs)
      (.node .separator (.chain (Statement.shapes vars funcs consequence))
        (.chain (Statement.shapes vars funcs alternative)))
  | .loop condition body =>
    .node (.control .loop) (condition.shape vars funcs)
      (.node .separator (.chain (Statement.shapes vars funcs body)) .absent)
  | .call function arguments =>
    .node (.function (funcs.intern function).1) .absent (.chain (Expr.shapes vars funcs arguments))
  | .ret value => .node (.unary .ret) .absent (value.shape vars funcs)
  | .output op value => .node (.unary (.output op)) .absent (value.shape vars funcs)
  | .input target => .node (.unary .input) .absent (variableShape vars target)

/-- The shapes of several statements. -/
def Statement.shapes (vars funcs : SymbolTable) : List Statement → List Shape
  | [] => []
  | statement :: statements =>
    statement.shape vars funcs :: Statement.shapes vars funcs statements

end

/-- The shape of a chain of definitions. -/
def Definition.chainShape (vars funcs : SymbolTable) : List Definition → Shape
  | [] => .absent
  | definition :: definitions =>
    .node (.function (funcs.intern definition.name).1)
      (.node .separator (.chain (Statement.shapes vars funcs definition.body))
        (.chain (definition.parameters.map (variableShape vars))))
      (Definition.chainShape vars funcs definitions)

/-- The definitions of a program, the one that runs first in front of the others. -/
def Program.entryFirst (program : Program) (entry : String) : List Definition :=
  Layout.toFront program.definitions (program.entryPosition entry)

/-! ### Tables along the layout -/

namespace Tree

/-- The tables of a tree are kept by the given ones. -/
def Within (t : Tree) (vars funcs : SymbolTable) : Prop :=
  t.vars.Within vars ∧ t.funcs.Within funcs

/-- A new chain changes no table. -/
theorem tables_chain (t : Tree) (items : List NodeId) :
  (t.chain items).2.vars = t.vars ∧ (t.chain items).2.funcs = t.funcs
  := by
  induction items with
  | nil => constructor <;> rfl
  | cons item items ih =>
    obtain ⟨hvars, hfuncs⟩ := tables_node (t.chain items).2 .separator (some item) (t.chain items).1
    constructor
    · apply hvars.trans ih.1
    · apply hfuncs.trans ih.2

/-- Tables that are kept after a new node are kept before it. -/
theorem Within.of_node {t : Tree} {kind : NodeKind} {left right : Option NodeId}
    {vars funcs : SymbolTable} (h : (t.node kind left right).2.Within vars funcs) :
  t.Within vars funcs
  := by
  obtain ⟨hvars, hfuncs⟩ := t.tables_node kind left right
  rwa [Within, hvars, hfuncs] at h

/-- Tables that are kept after a new chain are kept before it. -/
theorem Within.of_chain {t : Tree} {items : List NodeId} {vars funcs : SymbolTable}
    (h : (t.chain items).2.Within vars funcs) :
  t.Within vars funcs
  := by
  obtain ⟨hvars, hfuncs⟩ := t.tables_chain items
  rwa [Within, hvars, hfuncs] at h

end Tree

namespace Layout

variable {vars funcs : SymbolTable}

/-- Tables that are kept after a variable is added are kept before. -/
theorem within_of_addVariable {name : String} {t : Tree}
    (h : (addVariable name t).2.Within vars funcs) :
  t.Within vars funcs
  := by
  obtain ⟨hvars, hfuncs⟩ := h.of_node
  constructor
  · apply (t.vars.within_intern name).trans hvars
  · apply hfuncs

/-- Tables that are kept after a function is asked for are kept before. -/
theorem within_of_functionIndex {name : String} {t : Tree}
    (h : (functionIndex name t).2.Within vars funcs) :
  t.Within vars funcs
  := by
  obtain ⟨hvars, hfuncs⟩ := h
  constructor
  · apply hvars
  · apply (t.funcs.within_intern name).trans hfuncs

/-- Tables that are kept after variables are added are kept before. -/
theorem within_of_addVariables {names : List String} {t : Tree}
    (h : (addVariables names t).2.Within vars funcs) :
  t.Within vars funcs
  := by
  induction names generalizing t with
  | nil => apply h
  | cons name names ih => apply within_of_addVariable (ih h)

mutual

/-- Tables that are kept after an expression is added are kept before. -/
theorem within_of_addExpr :
  ∀ (e : Expr) {t : Tree}, (addExpr e t).2.Within vars funcs → t.Within vars funcs
  | .number _, _, h => h.of_node
  | .variable _, _, h => within_of_addVariable h
  | .input _, _, h => within_of_addVariable h.of_node
  | .call _ arguments, _, h =>
      within_of_functionIndex (within_of_addExprs arguments h.of_node.of_chain)
  | .math _ operand, _, h => within_of_addExpr operand h.of_node
  | .arithmetic _ left right, _, h => within_of_addExpr left (within_of_addExpr right h.of_node)
  | .comparison _ left right, _, h => within_of_addExpr left (within_of_addExpr right h.of_node)

/-- Tables that are kept after expressions are added are kept before. -/
theorem within_of_addExprs :
  ∀ (es : List Expr) {t : Tree}, (addExprs es t).2.Within vars funcs → t.Within vars funcs
  | [], _, h => h
  | e :: es, _, h => within_of_addExpr e (within_of_addExprs es h)

end

mutual

/-- Tables that are kept after a statement is added are kept before. -/
theorem within_of_addStatement :
  ∀ (s : Statement) {t : Tree}, (addStatement s t).2.Within vars funcs → t.Within vars funcs
  | .assign _ value, _, h => within_of_addVariable (within_of_addExpr value h.of_node)
  | .branch condition consequence alternative, _, h =>
      within_of_addExpr condition (within_of_addStatements consequence
        (within_of_addStatements alternative h.of_node.of_node.of_chain).of_chain)
  | .loop condition body, _, h =>
      within_of_addExpr condition (within_of_addStatements body h.of_node.of_node.of_chain)
  | .call _ arguments, _, h =>
      within_of_functionIndex (within_of_addExprs arguments h.of_node.of_chain)
  | .ret value, _, h => within_of_addExpr value h.of_node
  | .output _ value, _, h => within_of_addExpr value h.of_node
  | .input _, _, h => within_of_addVariable h.of_node

/-- Tables that are kept after statements are added are kept before. -/
theorem within_of_addStatements :
  ∀ (ss : List Statement) {t : Tree}, (addStatements ss t).2.Within vars funcs →
    t.Within vars funcs
  | [], _, h => h
  | s :: ss, _, h => within_of_addStatement s (within_of_addStatements ss h)

end

/-- Tables that are kept after a function is added are kept before. -/
theorem within_of_addFunction {definition : Definition} {t : Tree}
    (h : (addFunction definition t).2.Within vars funcs) :
  t.Within vars funcs
  := by
  apply within_of_functionIndex
  apply within_of_addVariables
  apply Tree.Within.of_chain
  apply within_of_addStatements
  apply Tree.Within.of_chain h

/-- Tables that are kept after functions are added are kept before. -/
theorem within_of_addFunctions {definitions : List Definition} {t : Tree}
    (h : (addFunctions definitions t).2.Within vars funcs) :
  t.Within vars funcs
  := by
  induction definitions generalizing t with
  | nil => apply h
  | cons definition definitions ih => apply within_of_addFunction (ih h)

/-- Tables that are kept after functions are linked are kept before. -/
theorem within_of_link {functions : List Unlinked} {t : Tree}
    (h : (link functions t).2.Within vars funcs) :
  t.Within vars funcs
  := by
  induction functions generalizing t with
  | nil => apply h
  | cons function functions ih => apply ih h.of_node.of_node

/-! ### Trees along the layout -/

/-- Several new trees with the given links and shapes stand beside a forest. -/
def HoldsAll (t : Tree) (ids : List NodeId) (shapes : List Shape)
    (forest : Multiset (Option NodeId × Shape)) : Prop :=
  ∃ items : List (NodeId × Shape), items.map Prod.fst = ids ∧ items.map Prod.snd = shapes
    ∧ t.Holds (Multiset.ofList (items.map fun item => (some item.1, item.2)) + forest)

variable {t : Tree} {forest : Multiset (Option NodeId × Shape)}

/-- A forest holds no items besides itself. -/
theorem HoldsAll.nil (h : t.Holds forest) :
  HoldsAll t [] [] forest
  := by
  use [], rfl, rfl
  rwa [List.map_nil, Multiset.coe_nil, zero_add]

/-- One more item in front of items. -/
theorem HoldsAll.cons {id : NodeId} {s : Shape} {ids : List NodeId} {shapes : List Shape}
    (h : HoldsAll t ids shapes ((some id, s) ::ₘ forest)) :
  HoldsAll t (id :: ids) (s :: shapes) forest
  := by
  obtain ⟨items, rfl, rfl, hitems⟩ := h
  use (id, s) :: items, rfl, rfl
  rwa [List.map_cons, ← Multiset.cons_coe, Multiset.cons_add, ← Multiset.add_cons]

/-- A chain joins the items that a forest holds. -/
theorem HoldsAll.chain {ids : List NodeId} {shapes : List Shape}
    (h : HoldsAll t ids shapes forest) :
  (t.chain ids).2.Holds (((t.chain ids).1, .chain shapes) ::ₘ forest)
  := by
  obtain ⟨items, rfl, rfl, hitems⟩ := h
  apply hitems.chain

/-- A variable is added as one tree more. -/
theorem addVariable_holds {name : String} (h : t.Holds forest)
    (hw : (addVariable name t).2.Within vars funcs) :
  (addVariable name t).2.Holds ((some (addVariable name t).1, variableShape vars name) ::ₘ forest)
  := by
  have hvars : (t.vars.intern name).2.Within vars := hw.of_node.1
  have hgrown : Tree.Holds { t with vars := (t.vars.intern name).2 } forest := h.of_nodes_eq rfl rfl
  rw [variableShape, ← SymbolTable.intern_fst_of_within hvars]
  apply hgrown.absent.absent.node

/-- Variables are added as one tree more for each of them. -/
theorem addVariables_holds {names : List String} (h : t.Holds forest)
    (hw : (addVariables names t).2.Within vars funcs) :
  HoldsAll (addVariables names t).2 (addVariables names t).1 (names.map (variableShape vars)) forest
  := by
  induction names generalizing t forest with
  | nil => apply HoldsAll.nil h
  | cons name names ih =>
    apply HoldsAll.cons
    apply ih _ hw
    apply addVariable_holds h (within_of_addVariables hw)

/-- The position that a function gets in the finished table. -/
theorem functionIndex_fst {name : String} (hw : (functionIndex name t).2.Within vars funcs) :
  (functionIndex name t).1 = (funcs.intern name).1
  := SymbolTable.intern_fst_of_within hw.2

mutual

/-- Adding an expression adds a tree of its shape. -/
theorem addExpr_holds :
  ∀ (e : Expr) {t : Tree} {forest : Multiset (Option NodeId × Shape)}, t.Holds forest →
    (addExpr e t).2.Within vars funcs →
    (addExpr e t).2.Holds ((some (addExpr e t).1, e.shape vars funcs) ::ₘ forest)
  | .number _, _, _, h, _ => h.absent.absent.node _
  | .variable _, _, _, h, hw => addVariable_holds h hw
  | .input _, _, _, h, hw => (addVariable_holds h hw.of_node).absent.node _
  | .call function arguments, t, forest, h, hw => by
      have hindex : (functionIndex function t).2.Within vars funcs :=
        within_of_addExprs arguments hw.of_node.of_chain
      have hstart : (functionIndex function t).2.Holds forest := h.of_nodes_eq rfl rfl
      have hitems := addExprs_holds arguments hstart hw.of_node.of_chain
      rw [Expr.shape, ← functionIndex_fst hindex]
      apply hitems.chain.absent.node
  | .math _ operand, _, _, h, hw => (addExpr_holds operand h hw.of_node).absent.node _
  | .arithmetic _ left right, _, _, h, hw => by
      have hleft := addExpr_holds left h (within_of_addExpr right hw.of_node)
      have hright := addExpr_holds right hleft hw.of_node
      rw [Multiset.cons_swap] at hright
      apply hright.node
  | .comparison _ left right, _, _, h, hw => by
      have hleft := addExpr_holds left h (within_of_addExpr right hw.of_node)
      have hright := addExpr_holds right hleft hw.of_node
      rw [Multiset.cons_swap] at hright
      apply hright.node

/-- Expressions are added as one tree more for each of them. -/
theorem addExprs_holds :
  ∀ (es : List Expr) {t : Tree} {forest : Multiset (Option NodeId × Shape)}, t.Holds forest →
    (addExprs es t).2.Within vars funcs →
    HoldsAll (addExprs es t).2 (addExprs es t).1 (Expr.shapes vars funcs es) forest
  | [], _, _, h, _ => HoldsAll.nil h
  | e :: es, _, _, h, hw =>
      HoldsAll.cons (addExprs_holds es (addExpr_holds e h (within_of_addExprs es hw)) hw)

end

mutual

/-- Adding a statement adds a tree of its shape. -/
theorem addStatement_holds :
  ∀ (s : Statement) {t : Tree} {forest : Multiset (Option NodeId × Shape)}, t.Holds forest →
    (addStatement s t).2.Within vars funcs →
    (addStatement s t).2.Holds ((some (addStatement s t).1, s.shape vars funcs) ::ₘ forest)
  | .assign _ value, _, _, h, hw => by
      have htarget := addVariable_holds h (within_of_addExpr value hw.of_node)
      have hvalue := addExpr_holds value htarget hw.of_node
      rw [Multiset.cons_swap] at hvalue
      apply hvalue.node
  | .branch condition consequence alternative, _, _, h, hw => by
      have hwa := hw.of_node.of_node.of_chain
      have hwc := (within_of_addStatements alternative hwa).of_chain
      have htest := addExpr_holds condition h (within_of_addStatements consequence hwc)
      have hfirst := (addStatements_holds consequence htest hwc).chain
      have hsecond := (addStatements_holds alternative hfirst hwa).chain
      rw [Multiset.cons_swap] at hsecond
      have harms := hsecond.node .separator
      rw [Multiset.cons_swap] at harms
      apply harms.node
  | .loop condition body, _, _, h, hw => by
      have hwb := hw.of_node.of_node.of_chain
      have htest := addExpr_holds condition h (within_of_addStatements body hwb)
      have hbody := (addStatements_holds body htest hwb).chain.absent
      rw [Multiset.cons_swap] at hbody
      have harms := hbody.node .separator
      rw [Multiset.cons_swap] at harms
      apply harms.node
  | .call function arguments, _, _, h, hw => addExpr_holds (.call function arguments) h hw
  | .ret value, _, _, h, hw => (addExpr_holds value h hw.of_node).absent.node _
  | .output _ value, _, _, h, hw => (addExpr_holds value h hw.of_node).absent.node _
  | .input target, _, _, h, hw => addExpr_holds (.input target) h hw

/-- Statements are added as one tree more for each of them. -/
theorem addStatements_holds :
  ∀ (ss : List Statement) {t : Tree} {forest : Multiset (Option NodeId × Shape)}, t.Holds forest →
    (addStatements ss t).2.Within vars funcs →
    HoldsAll (addStatements ss t).2 (addStatements ss t).1 (Statement.shapes vars funcs ss) forest
  | [], _, _, h, _ => HoldsAll.nil h
  | s :: ss, _, _, h, hw => by
      apply HoldsAll.cons
      apply addStatements_holds ss _ hw
      apply addStatement_holds s h (within_of_addStatements ss hw)

end

/-! ### Definitions -/

/-- The body of a function that is not linked yet. -/
def unlinkedBody (vars funcs : SymbolTable) (pair : Unlinked × Definition) :
    Option NodeId × Shape :=
  (pair.1.body, .chain (Statement.shapes vars funcs pair.2.body))

/-- The parameters of a function that is not linked yet. -/
def unlinkedParameters (vars : SymbolTable) (pair : Unlinked × Definition) :
    Option NodeId × Shape :=
  (pair.1.parameters, .chain (pair.2.parameters.map (variableShape vars)))

/-- The bodies and parameters of functions that are not linked yet. -/
def unlinkedForest (vars funcs : SymbolTable) (pairs : Multiset (Unlinked × Definition)) :
    Multiset (Option NodeId × Shape) :=
  pairs.map (unlinkedBody vars funcs) + pairs.map (unlinkedParameters vars)

/-- One more function adds the trees of its body and its parameters. -/
theorem unlinkedForest_cons (pair : Unlinked × Definition)
    (pairs : Multiset (Unlinked × Definition)) (forest : Multiset (Option NodeId × Shape)) :
  unlinkedForest vars funcs (pair ::ₘ pairs) + forest
    = unlinkedForest vars funcs pairs
      + (unlinkedBody vars funcs pair ::ₘ unlinkedParameters vars pair ::ₘ forest)
  := by
  simp only [unlinkedForest, Multiset.map_cons, Multiset.cons_add, Multiset.add_cons]
  apply Multiset.cons_swap

/-- A function is added as the trees of its body and its parameters. -/
theorem addFunction_holds (definition : Definition) (h : t.Holds forest)
    (hw : (addFunction definition t).2.Within vars funcs) :
  (addFunction definition t).1.index = (funcs.intern definition.name).1
    ∧ (addFunction definition t).2.Holds
        (unlinkedBody vars funcs ((addFunction definition t).1, definition)
          ::ₘ unlinkedParameters vars ((addFunction definition t).1, definition) ::ₘ forest)
  := by
  have hwp := (within_of_addStatements definition.body hw.of_chain).of_chain
  constructor
  · apply functionIndex_fst (within_of_addVariables hwp)
  · have hstart : (functionIndex definition.name t).2.Holds forest := h.of_nodes_eq rfl rfl
    have hparameters := (addVariables_holds hstart hwp).chain
    apply (addStatements_holds definition.body hparameters hw.of_chain).chain

/-- Functions are added as the trees of their bodies and their parameters, in their order. -/
theorem addFunctions_holds {definitions : List Definition} (h : t.Holds forest)
    (hw : (addFunctions definitions t).2.Within vars funcs) :
  ∃ pairs : List (Unlinked × Definition),
    pairs.map Prod.fst = (addFunctions definitions t).1 ∧ pairs.map Prod.snd = definitions
    ∧ (∀ pair ∈ pairs, pair.1.index = (funcs.intern pair.2.name).1)
    ∧ (addFunctions definitions t).2.Holds (unlinkedForest vars funcs pairs + forest)
  := by
  induction definitions generalizing t forest with
  | nil =>
    use [], rfl, rfl
    constructor
    · intro pair hpair
      cases hpair
    · simp only [unlinkedForest, Multiset.coe_nil, Multiset.map_zero, zero_add]
      apply h
  | cons definition definitions ih =>
    obtain ⟨hindex, hfirst⟩ := addFunction_holds definition h (within_of_addFunctions hw)
    obtain ⟨pairs, hfst, hsnd, hindices, hothers⟩ := ih hfirst hw
    use ((addFunction definition t).1, definition) :: pairs
    rw [← Multiset.cons_coe, unlinkedForest_cons]
    constructor
    · apply congrArg (_ :: ·) hfst
    · constructor
      · apply congrArg (_ :: ·) hsnd
      · constructor
        · intro pair hpair
          rcases List.mem_cons.mp hpair with rfl | hpair
          · apply hindex
          · apply hindices pair hpair
        · apply hothers

/-- Linking functions joins them to a chain of definitions. -/
theorem link_holds {pairs : List (Unlinked × Definition)}
    (hindices : ∀ pair ∈ pairs, pair.1.index = (funcs.intern pair.2.name).1)
    (h : t.Holds (unlinkedForest vars funcs pairs + forest)) :
  (link (pairs.map Prod.fst) t).2.Holds
    (((link (pairs.map Prod.fst) t).1,
      Definition.chainShape vars funcs (pairs.map Prod.snd)) ::ₘ forest)
  := by
  induction pairs generalizing forest with
  | nil =>
    simp only [unlinkedForest, Multiset.coe_nil, Multiset.map_zero, zero_add] at h
    apply h.absent
  | cons pair pairs ih =>
    obtain ⟨hindex, hindices⟩ := List.forall_mem_cons.mp hindices
    rw [← Multiset.cons_coe, unlinkedForest_cons] at h
    have hnext := ih hindices h
    rw [Multiset.cons_swap, Multiset.cons_swap _ (unlinkedParameters vars pair)] at hnext
    have hheader := hnext.node .separator
    simp only [List.map_cons, Definition.chainShape, ← hindex]
    apply hheader.node

/-- Moving an item to the front commutes with a change of the items. -/
theorem toFront_map {α β : Type} (f : α → β) (items : List α) (position : Nat) :
  toFront (items.map f) position = (toFront items position).map f
  := by
  rw [toFront, toFront, List.map_append, List.getElem?_map, List.eraseIdx_map, Option.toList_map]

/-- Moving an item to the front loses nothing. -/
theorem toFront_perm {α : Type} (items : List α) (position : Nat) :
  (toFront items position).Perm items
  := by
  rw [toFront]
  cases h : items[position]? with
  | none =>
    rw [List.eraseIdx_of_length_le (List.getElem?_eq_none_iff.mp h), Option.toList_none,
      List.nil_append]
  | some item =>
    obtain ⟨hlt, rfl⟩ := List.getElem?_eq_some_iff.mp h
    apply List.getElem_cons_eraseIdx_perm hlt

end Layout

/-- The layout of a program is one tree of the shape of the program. -/
theorem Program.layout_holds (program : Program) (entry : String) {start : Tree}
    (hstart : start.size = 0) (hlive : start.live = 0) :
  (program.layout entry start).Holds
    {((program.layout entry start).root,
      Definition.chainShape (program.layout entry start).vars (program.layout entry start).funcs
        (program.entryFirst entry))}
  := by
  let position := program.entryPosition entry
  let functions := Layout.addFunctions program.definitions start
  let linked := Layout.link (Layout.toFront functions.1 position) functions.2
  have hwithin : functions.2.Within linked.2.vars linked.2.funcs :=
    Layout.within_of_link ⟨List.prefix_rfl, List.prefix_rfl⟩
  obtain ⟨pairs, hfst, hsnd, hindices, hforest⟩ :=
    Layout.addFunctions_holds (Tree.Holds.empty hstart hlive) hwithin
  have hperm := Layout.toFront_perm pairs position
  have hlink : (Layout.link ((Layout.toFront pairs position).map Prod.fst) functions.2).2.Holds _ :=
    Layout.link_holds (fun pair hpair => hindices pair (hperm.mem_iff.mp hpair))
      (by rwa [Multiset.coe_eq_coe.mpr hperm])
  rw [← Layout.toFront_map, ← Layout.toFront_map, hfst, hsnd] at hlink
  apply hlink.of_nodes_eq
  · rfl
  · rfl

end StackCompiler
