import StackCompiler.Proofs.Program.Layout
import StackCompiler.Proofs.Program.Tokens
import StackCompiler.Proofs.Tree.Verification

/-!
# What verification finds in a program

The layout of a program enters every name of the program into its tables, so nothing is wrong with
any single node.  If every function that is called is defined, then all that verification can find
is a call whose number of arguments is not the number of parameters of its function.
-/

namespace StackCompiler

/-! ### Names are entered -/

/-- The name of a token is in its table. -/
def TokenKind.Entered (vars funcs : SymbolTable) : TokenKind → Prop
  | .variable name => name ∈ vars.names
  | .function name => name ∈ funcs.names
  | _ => True

/-- The names of all tokens are in their tables. -/
def AllEntered (vars funcs : SymbolTable) (tokens : List TokenKind) : Prop :=
  ∀ token ∈ tokens, token.Entered vars funcs

section AllEntered

variable {vars funcs : SymbolTable}

theorem AllEntered.nil :
  AllEntered vars funcs []
  := nofun

theorem AllEntered.cons {token : TokenKind} {tokens : List TokenKind}
    (h : token.Entered vars funcs) (hs : AllEntered vars funcs tokens) :
  AllEntered vars funcs (token :: tokens)
  := List.forall_mem_cons.mpr ⟨h, hs⟩

/-- The names of two parts are entered if and only if those of each part are. -/
theorem allEntered_append {tokens others : List TokenKind} :
  AllEntered vars funcs (tokens ++ others)
    ↔ AllEntered vars funcs tokens ∧ AllEntered vars funcs others
  := List.forall_mem_append

end AllEntered

namespace Layout

variable {vars funcs : SymbolTable}

/-- The name of a variable that was added is in the table. -/
theorem mem_of_addVariable {name : String} {t : Tree}
    (h : (addVariable name t).2.Within vars funcs) :
  name ∈ vars.names
  := by
  have hvars : (t.vars.intern name).2.Within vars := h.of_node.1
  apply hvars.subset (t.vars.mem_intern name)

/-- The name of a function that was asked for is in the table. -/
theorem mem_of_functionIndex {name : String} {t : Tree}
    (h : (functionIndex name t).2.Within vars funcs) :
  name ∈ funcs.names
  := by
  apply h.2.subset (t.funcs.mem_intern name)

mutual

/-- The names of an expression that was added are in the tables. -/
theorem entered_of_addExpr :
  ∀ (e : Expr) {t : Tree}, (addExpr e t).2.Within vars funcs → AllEntered vars funcs e.leaves
  | .number _, _, _ => .cons trivial .nil
  | .variable _, _, h => .cons (mem_of_addVariable h) .nil
  | .input _, _, h => .cons (mem_of_addVariable h.of_node) .nil
  | .call _ arguments, _, h =>
      .cons (mem_of_functionIndex (within_of_addExprs arguments h.of_node.of_chain))
        (entered_of_addExprs arguments h.of_node.of_chain)
  | .math _ operand, _, h => entered_of_addExpr operand h.of_node
  | .arithmetic _ left right, _, h =>
      allEntered_append.mpr ⟨entered_of_addExpr left (within_of_addExpr right h.of_node),
        entered_of_addExpr right h.of_node⟩
  | .comparison _ left right, _, h =>
      allEntered_append.mpr ⟨entered_of_addExpr left (within_of_addExpr right h.of_node),
        entered_of_addExpr right h.of_node⟩

/-- The names of expressions that were added are in the tables. -/
theorem entered_of_addExprs :
  ∀ (es : List Expr) {t : Tree}, (addExprs es t).2.Within vars funcs →
    AllEntered vars funcs (Expr.leavesOfAll es)
  | [], _, _ => .nil
  | e :: es, _, h =>
      allEntered_append.mpr ⟨entered_of_addExpr e (within_of_addExprs es h),
        entered_of_addExprs es h⟩

end

mutual

/-- The names of a statement that was added are in the tables. -/
theorem entered_of_addStatement :
  ∀ (s : Statement) {t : Tree}, (addStatement s t).2.Within vars funcs →
    AllEntered vars funcs s.leaves
  | .assign _ value, _, h =>
      .cons (mem_of_addVariable (within_of_addExpr value h.of_node))
        (entered_of_addExpr value h.of_node)
  | .branch condition consequence alternative, _, h => by
      have hsecond := h.of_node.of_node.of_chain
      have hfirst := (within_of_addStatements alternative hsecond).of_chain
      apply allEntered_append.mpr
      constructor
      · apply entered_of_addExpr condition (within_of_addStatements consequence hfirst)
      · apply allEntered_append.mpr
        constructor
        · apply entered_of_addStatements consequence hfirst
        · apply entered_of_addStatements alternative hsecond
  | .loop condition body, _, h => by
      have hbody := h.of_node.of_node.of_chain
      apply allEntered_append.mpr
      constructor
      · apply entered_of_addExpr condition (within_of_addStatements body hbody)
      · apply entered_of_addStatements body hbody
  | .call function arguments, _, h => entered_of_addExpr (.call function arguments) h
  | .ret value, _, h => entered_of_addExpr value h.of_node
  | .output _ value, _, h => entered_of_addExpr value h.of_node
  | .input target, _, h => entered_of_addExpr (.input target) h

/-- The names of statements that were added are in the tables. -/
theorem entered_of_addStatements :
  ∀ (ss : List Statement) {t : Tree}, (addStatements ss t).2.Within vars funcs →
    AllEntered vars funcs (Statement.leavesOfAll ss)
  | [], _, _ => .nil
  | s :: ss, _, h =>
      allEntered_append.mpr ⟨entered_of_addStatement s (within_of_addStatements ss h),
        entered_of_addStatements ss h⟩

end

/-- The names of variables that were added are in the table. -/
theorem entered_of_addVariables {names : List String} {t : Tree}
    (h : (addVariables names t).2.Within vars funcs) :
  AllEntered vars funcs (names.map .variable)
  := by
  induction names generalizing t with
  | nil => apply AllEntered.nil
  | cons name names ih =>
    apply AllEntered.cons
    · apply mem_of_addVariable (within_of_addVariables h)
    · apply ih h

/-- The names of functions that were added are in the tables. -/
theorem entered_of_addFunctions {definitions : List Definition} {t : Tree}
    (h : (addFunctions definitions t).2.Within vars funcs) :
  ∀ d ∈ definitions, AllEntered vars funcs d.leaves
  := by
  induction definitions generalizing t with
  | nil => nofun
  | cons first definitions ih =>
    intro d hd
    rcases List.mem_cons.mp hd with rfl | hd
    · have hfirst : (addFunction d t).2.Within vars funcs := within_of_addFunctions h
      have hbody := hfirst.of_chain
      have hparameters := (within_of_addStatements d.body hbody).of_chain
      apply allEntered_append.mpr
      constructor
      · apply entered_of_addVariables hparameters
      · apply entered_of_addStatements d.body hbody
    · apply ih h d hd

end Layout

/-- The layout of a program keeps the tables that it starts from and enters every name. -/
theorem Program.layout_entered (program : Program) (entry : String) (start : Tree) :
  start.Within (program.layout entry start).vars (program.layout entry start).funcs
    ∧ ∀ d ∈ program.definitions,
        AllEntered (program.layout entry start).vars (program.layout entry start).funcs d.leaves
  := by
  let functions := Layout.addFunctions program.definitions start
  let linked := Layout.link (Layout.toFront functions.1 (program.entryPosition entry)) functions.2
  have hwithin : functions.2.Within linked.2.vars linked.2.funcs :=
    Layout.within_of_link ⟨List.prefix_rfl, List.prefix_rfl⟩
  constructor
  · apply Layout.within_of_addFunctions hwithin
  · apply Layout.entered_of_addFunctions hwithin

/-! ### Nothing is wrong with a node -/

namespace Shape

@[simp]
theorem isPresent_absent :
  absent.isPresent = false
  := rfl

/-- A property holds at every node. -/
def Every (P : NodeKind → Shape → Shape → Prop) : Shape → Prop
  | absent => True
  | node kind left right => P kind left right ∧ left.Every P ∧ right.Every P

variable {P : NodeKind → Shape → Shape → Prop}

/-- Something holds of every node of a chain if it holds of every node of the items and of
separators. -/
theorem Every.chain {items : List Shape} (h : ∀ item ∈ items, item.Every P)
    (hseparator : ∀ left right, P .separator left right) :
  (Shape.chain items).Every P
  := by
  induction items with
  | nil => trivial
  | cons item items ih =>
    obtain ⟨hitem, hitems⟩ := List.forall_mem_cons.mp h
    use hseparator _ _, hitem, ih hitems

/-- What follows from something that holds of every node holds of every node. -/
theorem Every.mono {Q : NodeKind → Shape → Shape → Prop} {s : Shape} (hs : s.Every P)
    (h : ∀ kind left right, P kind left right → Q kind left right) :
  s.Every Q
  := by
  induction s with
  | absent => trivial
  | node kind left right ihl ihr =>
    obtain ⟨hnode, hleft, hright⟩ := hs
    use h kind left right hnode, ihl hleft, ihr hright

/-- If nothing is collected from any node, then nothing is collected. -/
theorem collect_eq_nil {α : Type} {f : NodeKind → Shape → Shape → List α} {s : Shape}
    (h : s.Every fun kind left right => f kind left right = []) :
  s.collect f = []
  := by
  induction s with
  | absent => rfl
  | node kind left right ihl ihr =>
    obtain ⟨hnode, hleft, hright⟩ := h
    rw [collect, hnode, ihl hleft, ihr hright, List.append_nil, List.append_nil]

/-- Everything that is found in a shape has a property exactly if all that is found at each node
has it. -/
theorem forall_mem_collect {α : Type} {f : NodeKind → Shape → Shape → List α} {Q : α → Prop}
    {s : Shape} :
  (∀ x ∈ s.collect f, Q x) ↔ s.Every fun kind left right => ∀ x ∈ f kind left right, Q x
  := by
  induction s with
  | absent => simp [collect, Every]
  | node kind left right ihl ihr =>
    rw [collect, List.forall_mem_append, List.forall_mem_append, ihl, ihr, Every]

/-- What holds at every node of an expression or a statement: nothing is wrong with it, it defines
no function, and if it is a call, then of a function in the given list. -/
structure Sound (vars funcs registered : SymbolTable) (kind : NodeKind) (left right : Shape) :
    Prop where
  findings : nodeFindings vars funcs kind left right = []
  definitions : definitionAt kind left right = []
  calls : ∀ call ∈ callAt kind left right,
    ∃ name ∈ registered.names, call.1 = (funcs.intern name).1

end Shape

section Sound

variable {vars funcs registered : SymbolTable}

namespace Shape.Sound

/-- Nothing is wrong with a separator. -/
theorem separator (left right : Shape) :
  Sound vars funcs registered .separator left right
  := ⟨rfl, rfl, nofun⟩

/-- Nothing is wrong with a binary operator that has both operands, if an assignment has a variable
for its target. -/
theorem binary {op : BinaryOp} {left right : Shape} (hleft : left.isPresent)
    (hright : right.isPresent) (hop : op ≠ .assign ∨ left.isVariable) :
  Sound vars funcs registered (.binary op) left right
  := by
  constructor
  · simp [nodeFindings, hleft, hright, hop]
  · rfl
  · apply List.forall_mem_nil

/-- Nothing is wrong with a unary operator that has its operand, if an input has a variable for its
target. -/
theorem unary {op : UnaryOp} {right : Shape} (hright : right.isPresent)
    (hop : op ≠ .input ∨ right.isVariable) :
  Sound vars funcs registered (.unary op) .absent right
  := by
  constructor
  · simp [nodeFindings, hright, hop]
  · rfl
  · apply List.forall_mem_nil

/-- Nothing is wrong with a branch or a loop that has a condition and arms. -/
theorem control {op : ControlOp} {left first second : Shape} (hleft : left.isPresent) :
  Sound vars funcs registered (.control op) left (.node .separator first second)
  := by
  constructor
  · simp [nodeFindings, kind?, hleft]
  · rfl
  · apply List.forall_mem_nil

/-- Nothing is wrong with a call of a registered function. -/
theorem call {name : String} {right : Shape} (hname : name ∈ registered.names)
    (hwithin : registered.Within funcs) :
  Sound vars funcs registered (.function (funcs.intern name).1) .absent right
  := by
  constructor
  · simp [nodeFindings, SymbolTable.containsIndex_intern_fst (hwithin.subset hname)]
  · rfl
  · intro call hcall
    obtain rfl := List.mem_singleton.mp hcall
    use name, hname

end Shape.Sound

/-- Nothing is wrong with a variable whose name is entered. -/
theorem variableShape_every {name : String} (h : name ∈ vars.names) :
  (variableShape vars name).Every (Shape.Sound vars funcs registered)
  := by
  constructor
  · constructor
    · simp [Shape.nodeFindings, SymbolTable.containsIndex_intern_fst h]
    · rfl
    · apply List.forall_mem_nil
  · use trivial
    trivial

/-- An expression has a node. -/
theorem Expr.isPresent_shape (e : Expr) :
  (e.shape vars funcs).isPresent
  := by
  cases e <;> rfl

mutual

/-- Every node of an expression is sound. -/
theorem Expr.every_shape (hw : registered.Within funcs) :
  ∀ (e : Expr), AllEntered vars registered e.leaves →
    (e.shape vars funcs).Every (Shape.Sound vars funcs registered)
  | .number _, _ => ⟨⟨rfl, rfl, nofun⟩, trivial, trivial⟩
  | .variable _, h => variableShape_every (h _ List.mem_cons_self)
  | .input _, h =>
      ⟨.unary rfl (.inr rfl), trivial, variableShape_every (h _ List.mem_cons_self)⟩
  | .call _ arguments, h =>
      ⟨.call (h _ List.mem_cons_self) hw, trivial,
        .chain (Expr.every_shapes hw arguments (List.forall_mem_cons.mp h).2) .separator⟩
  | .math _ operand, h =>
      ⟨.unary operand.isPresent_shape (.inl nofun), trivial, Expr.every_shape hw operand h⟩
  | .arithmetic _ left right, h =>
      ⟨.binary left.isPresent_shape right.isPresent_shape (.inl nofun),
        Expr.every_shape hw left (allEntered_append.mp h).1,
        Expr.every_shape hw right (allEntered_append.mp h).2⟩
  | .comparison _ left right, h =>
      ⟨.binary left.isPresent_shape right.isPresent_shape (.inl nofun),
        Expr.every_shape hw left (allEntered_append.mp h).1,
        Expr.every_shape hw right (allEntered_append.mp h).2⟩

/-- Nothing is wrong with any node of expressions whose names are entered. -/
theorem Expr.every_shapes (hw : registered.Within funcs) :
  ∀ (es : List Expr), AllEntered vars registered (Expr.leavesOfAll es) →
    ∀ item ∈ Expr.shapes vars funcs es, item.Every (Shape.Sound vars funcs registered)
  | [], _ => nofun
  | e :: es, h => List.forall_mem_cons.mpr
      ⟨Expr.every_shape hw e (allEntered_append.mp h).1,
        Expr.every_shapes hw es (allEntered_append.mp h).2⟩

end

mutual

/-- Every node of a statement is sound. -/
theorem Statement.every_shape (hw : registered.Within funcs) :
  ∀ (s : Statement), AllEntered vars registered s.leaves →
    (s.shape vars funcs).Every (Shape.Sound vars funcs registered)
  | .assign _ value, h =>
      ⟨.binary rfl value.isPresent_shape (.inr rfl), variableShape_every (h _ List.mem_cons_self),
        value.every_shape hw (List.forall_mem_cons.mp h).2⟩
  | .branch condition consequence alternative, h => by
      obtain ⟨htest, h⟩ := allEntered_append.mp h
      obtain ⟨hfirst, hsecond⟩ := allEntered_append.mp h
      constructor
      · apply Shape.Sound.control condition.isPresent_shape
      · use condition.every_shape hw htest, .separator _ _,
          .chain (Statement.every_shapes hw consequence hfirst) .separator,
          .chain (Statement.every_shapes hw alternative hsecond) .separator
  | .loop condition body, h => by
      obtain ⟨htest, hbody⟩ := allEntered_append.mp h
      constructor
      · apply Shape.Sound.control condition.isPresent_shape
      · use condition.every_shape hw htest, .separator _ _,
          .chain (Statement.every_shapes hw body hbody) .separator
        trivial
  | .call function arguments, h => (Expr.call function arguments).every_shape hw h
  | .ret value, h =>
      ⟨.unary value.isPresent_shape (.inl nofun), trivial, value.every_shape hw h⟩
  | .output _ value, h =>
      ⟨.unary value.isPresent_shape (.inl nofun), trivial, value.every_shape hw h⟩
  | .input target, h => (Expr.input target).every_shape hw h

/-- Nothing is wrong with any node of statements whose names are entered. -/
theorem Statement.every_shapes (hw : registered.Within funcs) :
  ∀ (ss : List Statement), AllEntered vars registered (Statement.leavesOfAll ss) →
    ∀ item ∈ Statement.shapes vars funcs ss, item.Every (Shape.Sound vars funcs registered)
  | [], _ => nofun
  | s :: ss, h => List.forall_mem_cons.mpr
      ⟨Statement.every_shape hw s (allEntered_append.mp h).1,
        Statement.every_shapes hw ss (allEntered_append.mp h).2⟩

end

end Sound

/-! ### Calls -/

section Calls

variable {vars funcs : SymbolTable} {calls : List (Nat × Nat)}

/-- There is one shape for each expression. -/
theorem Expr.length_shapes (es : List Expr) :
  (Expr.shapes vars funcs es).length = es.length
  := by
  induction es with
  | nil => rfl
  | cons e es ih => rw [Expr.shapes, List.length_cons, ih, List.length_cons]

/-- The calls of the children are among those of the node. -/
theorem Shape.calls_of_node {kind : NodeKind} {left right : Shape}
    (h : (Shape.node kind left right).collect callAt ⊆ calls) :
  left.collect callAt ⊆ calls ∧ right.collect callAt ⊆ calls
  := List.append_subset.mp (List.append_subset.mp h).2

/-- A call gives as many arguments as are written. -/
theorem Shape.calls_of_call {index : Nat} {es : List Expr}
    (h : (Shape.node (.function index) .absent (.chain (Expr.shapes vars funcs es))).collect callAt
      ⊆ calls) :
  (index, es.length) ∈ calls
    ∧ (Shape.chain (Expr.shapes vars funcs es)).collect callAt ⊆ calls
  := by
  rw [collect, callAt, items_chain, Expr.length_shapes] at h
  apply List.cons_subset.mp h

end Calls

/-! ### Definitions -/

section Definitions

variable {vars funcs registered : SymbolTable}

/-- The function of a definition and the number of its parameters. -/
def Definition.signature (funcs : SymbolTable) (d : Definition) : Nat × Nat :=
  ((funcs.intern d.name).1, d.parameters.length)

/-- Nothing is wrong with any node of the body and the parameters of a function whose names are
entered. -/
theorem Definition.every_body (hw : registered.Within funcs) {d : Definition}
    (h : AllEntered vars registered d.leaves) :
  (Shape.chain (Statement.shapes vars funcs d.body)).Every (Shape.Sound vars funcs registered)
    ∧ (Shape.chain (d.parameters.map (variableShape vars))).Every
        (Shape.Sound vars funcs registered)
  := by
  obtain ⟨hparameters, hbody⟩ := allEntered_append.mp h
  constructor
  · apply Shape.Every.chain (Statement.every_shapes hw d.body hbody) .separator
  · apply Shape.Every.chain _ .separator
    intro item hitem
    obtain ⟨name, hname, rfl⟩ := List.mem_map.mp hitem
    apply variableShape_every
    apply hparameters _ (List.mem_map_of_mem hname)

/-- The definitions that are found are those of the chain. -/
theorem Definition.collect_definitionAt (hw : registered.Within funcs) {ds : List Definition}
    (h : ∀ d ∈ ds, AllEntered vars registered d.leaves) :
  (Definition.chainShape vars funcs ds).collect Shape.definitionAt = ds.map (signature funcs)
  := by
  induction ds with
  | nil => rfl
  | cons d ds ih =>
    obtain ⟨hd, hds⟩ := List.forall_mem_cons.mp h
    obtain ⟨hbody, hparameters⟩ := Definition.every_body hw hd
    have hbody' := Shape.collect_eq_nil (hbody.mono fun _ _ _ hsound => hsound.definitions)
    have hparameters' :=
      Shape.collect_eq_nil (hparameters.mono fun _ _ _ hsound => hsound.definitions)
    simp [chainShape, Shape.collect, Shape.definitionAt, hbody', hparameters', ih hds, signature]

/-- Nothing is wrong with a node of a chain of definitions, and all functions that are called are
registered. -/
theorem Definition.every_chainShape (hw : registered.Within funcs) {ds : List Definition}
    (hnames : ∀ d ∈ ds, d.name ∈ registered.names)
    (h : ∀ d ∈ ds, AllEntered vars registered d.leaves) :
  (Definition.chainShape vars funcs ds).Every fun kind left right =>
    Shape.nodeFindings vars funcs kind left right = []
      ∧ ∀ call ∈ Shape.callAt kind left right,
          ∃ name ∈ registered.names, call.1 = (funcs.intern name).1
  := by
  induction ds with
  | nil => trivial
  | cons d ds ih =>
    obtain ⟨hname, hnames⟩ := List.forall_mem_cons.mp hnames
    obtain ⟨hd, hds⟩ := List.forall_mem_cons.mp h
    obtain ⟨hbody, hparameters⟩ := Definition.every_body hw hd
    constructor
    · constructor
      · have hindex := SymbolTable.containsIndex_intern_fst (hw.subset hname)
        simp [Shape.nodeFindings, Shape.kind?, hindex]
      · apply List.forall_mem_nil
    · use ⟨⟨rfl, List.forall_mem_nil _⟩,
        hbody.mono fun _ _ _ hsound => ⟨hsound.findings, hsound.calls⟩,
        hparameters.mono fun _ _ _ hsound => ⟨hsound.findings, hsound.calls⟩⟩
      apply ih hnames hds

/-- All that can be wrong with a program whose functions are registered is the number of arguments
of a call. -/
theorem Definition.eq_callArity_of_mem_findings (hw : registered.Within funcs)
    {ds : List Definition} (hnames : ∀ name, name ∈ registered.names ↔ ∃ d ∈ ds, d.name = name)
    (h : ∀ d ∈ ds, AllEntered vars registered d.leaves) :
  ∀ finding ∈ (Definition.chainShape vars funcs ds).findings vars funcs, finding = .callArity
  := by
  have hevery := Definition.every_chainShape hw (fun d hd => (hnames d.name).mpr ⟨d, hd, rfl⟩) h
  have hcalls := Shape.forall_mem_collect.mpr (hevery.mono fun _ _ _ hnode => hnode.2)
  intro finding hfinding
  rw [Shape.findings, Shape.collect_eq_nil (hevery.mono fun _ _ _ hnode => hnode.1),
    List.nil_append, Definition.collect_definitionAt hw h] at hfinding
  -- Only what is found about calls is left, and every call is of a function that is defined.
  obtain ⟨call, hcall, hfinding⟩ := List.mem_flatMap.mp hfinding
  obtain ⟨name, hname, hindex⟩ := hcalls call hcall
  obtain ⟨d, hd, rfl⟩ := (hnames name).mp hname
  unfold Tree.callFindings at hfinding
  split at hfinding
  · rename_i hnone
    have hne := List.find?_eq_none.mp hnone (d.signature funcs) (List.mem_map_of_mem hd)
    simp [signature, hindex] at hne
  · split at hfinding
    · cases hfinding
    · apply List.mem_singleton.mp hfinding

/-- If nothing is wrong with a chain of definitions, then every call in it gives as many arguments
as its function has parameters. -/
theorem Definition.collect_callAt_subset {ds : List Definition}
    (h : (Definition.chainShape vars funcs ds).findings vars funcs = []) :
  (Definition.chainShape vars funcs ds).collect Shape.callAt
    ⊆ (Definition.chainShape vars funcs ds).collect Shape.definitionAt
  := by
  intro call hcall
  have hfindings := List.flatMap_eq_nil_iff.mp (List.append_eq_nil_iff.mp h).2 call hcall
  unfold Tree.callFindings at hfindings
  split at hfindings
  · cases hfindings
  · rename_i d hfind
    split at hfindings
    · rename_i hcount
      have hindex := List.find?_some hfind
      rw [beq_iff_eq] at hindex
      rw [← Prod.ext hindex hcount]
      apply List.mem_of_find?_eq_some hfind
    · cases hfindings

/-- The calls of a function are among those of the program. -/
theorem Definition.collect_body_subset {ds : List Definition} {d : Definition} (hd : d ∈ ds) :
  (Shape.chain (Statement.shapes vars funcs d.body)).collect Shape.callAt
    ⊆ (Definition.chainShape vars funcs ds).collect Shape.callAt
  := by
  induction ds with
  | nil => cases hd
  | cons first ds ih =>
    intro call hcall
    rw [chainShape, Shape.collect, Shape.collect]
    rcases List.mem_cons.mp hd with rfl | hd
    · simp [hcall]
    · simp [ih hd hcall]

end Definitions

end StackCompiler
