import StackCompiler.Proofs.Assembly.Lower
import StackCompiler.Proofs.Program.Layout

/-!
# The code of a program

The code of every expression, statement and definition by its syntax, given the symbol tables and
the index of the entry function.  Lowering a tree of the shape of a program succeeds and gives this
code.
-/

namespace StackCompiler

/-- The variables at the nodes of a shape, each as often as it occurs. -/
def Shape.mentioned : Shape → List Nat
  | absent => []
  | node kind left right =>
    (match kind with
      | .variable index => [index]
      | _ => [])
      ++ left.mentioned ++ right.mentioned

/-- The variables below a node are given by its shape. -/
theorem Unfolding.mentioned_eq (u : Unfolding) :
  u.mentioned = u.shape.mentioned
  := by
  induction u with
  | absent => rfl
  | dangling id => rfl
  | cut id => rfl
  | node id kind left right ihl ihr =>
    cases kind <;> simp only [mentioned, shape, Shape.mentioned, ihl, ihr]

section Definitions

variable (vars funcs : SymbolTable) (entry : Nat)

/-- The slot of a variable. -/
def variableSlot (name : String) : Nat :=
  (vars.intern name).1

mutual

/-- The code of an expression. -/
def Expr.code : Expr → List Line
  | .number value => [.instruction (.push value)]
  | .variable name => [.instruction (.load (variableSlot vars name))]
  | .input target =>
    [.instruction .input, .instruction (.store (variableSlot vars target)),
      .instruction (.load (variableSlot vars target))]
  | .call function arguments =>
    Lower.call entry (funcs.intern function).1
      (Shape.chain (Expr.shapes vars funcs arguments)).mentioned (Expr.codes arguments)
      ++ [.instruction .pushResult]
  | .math op operand => operand.code ++ [.instruction (.math op)]
  | .arithmetic op left right => left.code ++ right.code ++ [.instruction (.arithmetic op)]
  | .comparison op left right => left.code ++ right.code ++ [.instruction (.comparison op)]

/-- The code of several expressions, one after the other. -/
def Expr.codes : List Expr → List Line
  | [] => []
  | expr :: exprs => expr.code ++ Expr.codes exprs

end

mutual

/-- The code of a statement and the numbering after it. -/
def Statement.code : Statement → Numbering → List Line × Numbering
  | .assign target value, numbering =>
    (value.code vars funcs entry ++ [.instruction (.store (variableSlot vars target))], numbering)
  | .branch condition consequence alternative, numbering =>
    let first := Statement.codes consequence { numbering with branches := numbering.branches + 1 }
    let second := Statement.codes alternative first.2
    (Lower.branch numbering.branches (condition.code vars funcs entry) first.1 second.1, second.2)
  | .loop condition body, numbering =>
    let inner := Statement.codes body { numbering with loops := numbering.loops + 1 }
    (Lower.loop numbering.loops (condition.code vars funcs entry) inner.1, inner.2)
  | .call function arguments, numbering =>
    (Lower.call entry (funcs.intern function).1
      (Shape.chain (Expr.shapes vars funcs arguments)).mentioned
      (Expr.codes vars funcs entry arguments), numbering)
  | .ret value, numbering =>
    (value.code vars funcs entry ++ [.instruction .popResult, .instruction .ret], numbering)
  | .output op value, numbering =>
    (value.code vars funcs entry ++ [.instruction (.output op)], numbering)
  | .input target, numbering =>
    ([.instruction .input, .instruction (.store (variableSlot vars target))], numbering)

/-- The code of several statements and the numbering after them. -/
def Statement.codes : List Statement → Numbering → List Line × Numbering
  | [], numbering => ([], numbering)
  | statement :: statements, numbering =>
    let first := statement.code numbering
    let others := Statement.codes statements first.2
    (first.1 ++ others.1, others.2)

end

/-- Whether the last of the statements returns. -/
def Statement.endsWithReturn (body : List Statement) : Bool :=
  match body.getLast? with
  | some (.ret _) => true
  | _ => false

/-- The code of a definition and the numbering after it. -/
def Definition.code (definition : Definition) (numbering : Numbering) : List Line × Numbering :=
  let body := Statement.codes vars funcs entry definition.body numbering
  (.label (Lower.target entry (funcs.intern definition.name).1)
    :: (definition.parameters.map (variableSlot vars)).reverse.map
        (fun slot => .instruction (.store slot))
    ++ body.1
    ++ (if Statement.endsWithReturn definition.body then [] else [.instruction .ret]), body.2)

/-- The code of several definitions and the numbering after them. -/
def Definition.codes : List Definition → Numbering → List Line × Numbering
  | [], numbering => ([], numbering)
  | definition :: definitions, numbering =>
    let first := definition.code vars funcs entry numbering
    let others := Definition.codes definitions first.2
    (first.1 ++ others.1, others.2)

end Definitions

/-- The code of a program whose first definition runs first. -/
def Definition.programCode (vars funcs : SymbolTable) (first : Definition)
    (others : List Definition) (numbering : Numbering) : List Line × Numbering :=
  let entry := (funcs.intern first.name).1
  let functions := Definition.codes vars funcs entry others numbering
  let main := Statement.codes vars funcs entry first.body functions.2
  (.instruction (.jump .main) :: functions.1 ++ .label .main :: main.1 ++ [.instruction .halt],
    main.2)

namespace Lower

variable {vars funcs : SymbolTable} {entry : Nat}

/-- The slot of a variable is the position of its name. -/
theorem slot_eq {name : String} {u : Unfolding} (parent : NodeId)
    (h : u.Shows (variableShape vars name)) :
  slot parent u = .ok (variableSlot vars name)
  := by
  cases h with
  | node id hleft hright => rfl

/-- An expression has a node. -/
theorem eq_node_of_shows {e : Expr} {u : Unfolding} (h : u.Shows (e.shape vars funcs)) :
  ∃ id kind left right, u = .node id kind left right
  := by
  cases e <;> cases h <;> exact ⟨_, _, _, _, rfl⟩

mutual

/-- Lowering a tree of the shape of an expression gives its code. -/
theorem expression_eq :
  ∀ (e : Expr) {u : Unfolding} (parent : NodeId), u.Shows (e.shape vars funcs) →
    expression entry parent u = .ok (e.code vars funcs entry)
  | .number _, _, _, .node _ _ _ => rfl
  | .variable _, _, _, .node _ _ _ => rfl
  | .input target, _, _, .node id hleft hright => by
      simp only [expression, slot_eq id hright]
      rfl
  | .call function arguments, _, _, .node _ .absent hright => by
      simp only [expression, arguments_eq arguments hright, Unfolding.mentioned_eq, hright.shape_eq]
      rfl
  | .math op operand, _, _, .node id hleft hright => by
      simp only [expression, expression_eq operand id hright]
      rfl
  | .arithmetic op left right, _, _, .node id hleft hright => by
      simp only [expression, expression_eq left id hleft, expression_eq right id hright]
      rfl
  | .comparison op left right, _, _, .node id hleft hright => by
      simp only [expression, expression_eq left id hleft, expression_eq right id hright]
      rfl

/-- No argument of a call is an empty item. -/
theorem arguments_eq :
  ∀ (es : List Expr) {u : Unfolding}, u.Shows (.chain (Expr.shapes vars funcs es)) →
    arguments entry u = .ok (Expr.codes vars funcs entry es)
  | [], _, .absent => rfl
  | e :: es, _, .node id hleft hright => by
      obtain ⟨_, _, _, _, rfl⟩ := eq_node_of_shows hleft
      simp only [arguments, expression_eq e id hleft, arguments_eq es hright]
      rfl

end

mutual

/-- Lowering a tree of the shape of a statement gives its code. -/
theorem statement_eq :
  ∀ (s : Statement) {u : Unfolding} (numbering : Numbering), u.Shows (s.shape vars funcs) →
    statement entry u numbering = .ok (s.code vars funcs entry numbering)
  | .assign _ value, _, _, .node id hleft hright => by
      simp only [statement, expression_eq value id hright, slot_eq id hleft]
      rfl
  | .branch condition consequence alternative, _, _, .node id hleft (.node _ hfirst hsecond) => by
      obtain ⟨_, _, _, _, rfl⟩ := eq_node_of_shows hleft
      simp only [statement, expression_eq condition id hleft, statements_eq consequence _ hfirst,
        statements_eq alternative _ hsecond, ne_eq, not_true_eq_false, if_false, bind, Except.bind]
      rfl
  | .loop condition body, _, _, .node id hleft (.node _ hbody _) => by
      obtain ⟨_, _, _, _, rfl⟩ := eq_node_of_shows hleft
      simp only [statement, expression_eq condition id hleft, statements_eq body _ hbody, ne_eq,
        not_true_eq_false, if_false, bind, Except.bind]
      rfl
  | .call function arguments, _, _, .node _ .absent hright => by
      simp only [statement, arguments_eq arguments hright, Unfolding.mentioned_eq, hright.shape_eq]
      rfl
  | .ret value, _, _, .node id hleft hright => by
      simp only [statement, expression_eq value id hright]
      rfl
  | .output op value, _, _, .node id hleft hright => by
      simp only [statement, expression_eq value id hright]
      rfl
  | .input target, _, _, .node id hleft hright => by
      simp only [statement, slot_eq id hright]
      rfl

/-- Statements are lowered to their code. -/
theorem statements_eq :
  ∀ (ss : List Statement) {u : Unfolding} (numbering : Numbering),
    u.Shows (.chain (Statement.shapes vars funcs ss)) →
    statements entry u numbering = .ok (Statement.codes vars funcs entry ss numbering)
  | [], _, _, .absent => rfl
  | s :: ss, _, numbering, .node _ hleft hright => by
      simp only [statements, statement_eq s numbering hleft, statements_eq ss _ hright]
      rfl

end

/-- The slots of parameters are the positions of their names. -/
theorem slots_eq {names : List String} {u : Unfolding} (parent : NodeId)
    (h : u.Shows (.chain (names.map (variableShape vars)))) :
  slots parent u = .ok (names.map (variableSlot vars))
  := by
  induction names generalizing u with
  | nil =>
    cases h
    rfl
  | cons name names ih =>
    cases h with
    | node id hleft hright =>
      simp only [slots, slot_eq parent hleft, ih hright]
      rfl

/-- Whether a body ends with a return is seen from its statements. -/
theorem endsWithReturn_eq {body : List Statement} {u : Unfolding}
    (h : u.Shows (.chain (Statement.shapes vars funcs body))) :
  endsWithReturn u = Statement.endsWithReturn body
  := by
  induction body generalizing u with
  | nil =>
    cases h
    rfl
  | cons s ss ih =>
    cases h with
    | node id hleft hright =>
      cases ss with
      | nil =>
        cases hright
        cases s <;> cases hleft <;> rfl
      | cons s' ss =>
        have hothers := ih hright
        cases hright with
        | node other hleft' hright' =>
          simp only [endsWithReturn, Unfolding.items, List.getLast?_cons_cons] at hothers ⊢
          rw [hothers, Statement.endsWithReturn, Statement.endsWithReturn, List.getLast?_cons_cons]

/-- Lowering a tree of the shape of a definition gives its code. -/
theorem definition_eq (d : Definition) {id other : NodeId} {kind : NodeKind}
    {body parameters next : Unfolding} (numbering : Numbering)
    (hbody : body.Shows (.chain (Statement.shapes vars funcs d.body)))
    (hparameters : parameters.Shows (.chain (d.parameters.map (variableShape vars)))) :
  definition entry id
      (.node id (.function (funcs.intern d.name).1) (.node other kind body parameters) next)
      numbering
    = .ok (d.code vars funcs entry numbering)
  := by
  simp only [definition, header, bind, Except.bind, slots_eq id hparameters,
    statements_eq d.body _ hbody, endsWithReturn_eq hbody]
  rfl

/-- Functions are lowered to their code. -/
theorem definitions_eq {ds : List Definition} {u : Unfolding} (numbering : Numbering)
    (h : u.Shows (Definition.chainShape vars funcs ds)) :
  definitions entry u numbering = .ok (Definition.codes vars funcs entry ds numbering)
  := by
  induction ds generalizing u numbering with
  | nil =>
    cases h
    rfl
  | cons d ds ih =>
    cases h with
    | node id hleft hright =>
      cases hleft with
      | node other hbody hparameters =>
        simp only [definitions, definition_eq d numbering hbody hparameters, ih _ hright]
        rfl

/-- Lowering a tree of the shape of a program gives its code. -/
theorem program_eq {first : Definition} {ds : List Definition} {u : Unfolding}
    (numbering : Numbering) (h : u.Shows (Definition.chainShape vars funcs (first :: ds))) :
  program u numbering = .ok (Definition.programCode vars funcs first ds numbering)
  := by
  cases h with
  | node id hleft hright =>
    cases hleft with
    | node other hbody hparameters =>
      simp only [program, header, others, bind, Except.bind, definitions_eq numbering hright,
        statements_eq first.body _ hbody]
      rfl

end Lower

end StackCompiler
