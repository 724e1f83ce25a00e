import StackCompiler.Proofs.Assembly.Placement
import StackCompiler.Proofs.Tree.Flags

/-!
# Places in the arena

What lowering accepts, told by the nodes of the arena and the places where they stand.  The nodes
along the right links from the root are definitions.  The slots of their bodies are places for
statements, and so are those of the arms of the branches and loops that stand there, except for the
second arm of a loop.  The places for values are below statements, and below other values.

A place is given by the links that lead there from the root, so whatever lowering asks of a node
follows by induction along these links.  That nothing else is asked for follows by induction on what
is seen from a node.
-/

namespace StackCompiler

namespace Node

/-- The node can stand where a statement is wanted. -/
def IsStatement (n : Node) : Prop :=
  n.kind = .binary .assign ∨ (∃ index, n.Calls index) ∨ n.kind = .unary .ret
    ∨ n.kind = .unary .input ∨ (∃ op, n.kind = .unary (.output op)) ∨ ∃ op, n.kind = .control op

/-- The node can stand where a value is wanted. -/
def IsValue (n : Node) : Prop :=
  (∃ value, n.kind = .number value) ∨ (∃ index, n.kind = .variable index)
    ∨ (∃ op, n.kind = .binary op ∧ op ≠ .assign) ∨ n.kind = .unary .input
    ∨ (∃ op, n.kind = .unary (.math op)) ∨ ∃ index, n.Calls index

end Node

namespace Tree

/-! ### Places -/

/-- A slot of a chain: what one of its nodes, of whatever kind, holds on the left. -/
inductive HasSlot (t : Tree) : (head slot : Option NodeId) → Prop where
  | here {id : NodeId} {n : Node} (hget : t.get? id = some n) : HasSlot t (some id) n.left
  | next {id : NodeId} {n : Node} {slot : Option NodeId} (hget : t.get? id = some n)
      (hnext : HasSlot t n.right slot) : HasSlot t (some id) slot

/-- The positions along the right links from the root. -/
inductive OnSpine (t : Tree) : NodeId → Prop where
  | root {id : NodeId} (hroot : t.root = some id) : OnSpine t id
  | next {id next : NodeId} {n : Node} (hspine : OnSpine t id) (hget : t.get? id = some n)
      (hright : n.right = some next) : OnSpine t next

/-- Where a statement wants a value. -/
inductive StatementWants (t : Tree) (n : Node) : NodeId → Prop where
  | operand {id : NodeId}
      (hkind : n.kind = .binary .assign ∨ n.kind = .unary .ret ∨ ∃ op, n.kind = .unary (.output op))
      (hright : n.right = some id) : StatementWants t n id
  | condition {id : NodeId} {op : ControlOp} (hkind : n.kind = .control op)
      (hleft : n.left = some id) : StatementWants t n id
  | argument {id : NodeId} {index : Nat} (hcalls : n.Calls index)
      (hslot : t.HasSlot n.right (some id)) : StatementWants t n id

/-- Where a value wants another one. -/
inductive ValueWants (t : Tree) (n : Node) : NodeId → Prop where
  | left {id : NodeId} {op : BinaryOp} (hkind : n.kind = .binary op) (hop : op ≠ .assign)
      (hleft : n.left = some id) : ValueWants t n id
  | right {id : NodeId} {op : BinaryOp} (hkind : n.kind = .binary op) (hop : op ≠ .assign)
      (hright : n.right = some id) : ValueWants t n id
  | operand {id : NodeId} {op : MathOp} (hkind : n.kind = .unary (.math op))
      (hright : n.right = some id) : ValueWants t n id
  | argument {id : NodeId} {index : Nat} (hcalls : n.Calls index)
      (hslot : t.HasSlot n.right (some id)) : ValueWants t n id

/-- The places for statements: in the bodies of the definitions, and in the arms of branches and
loops in such places. -/
inductive StatementPlace (t : Tree) : NodeId → Prop where
  | body {id item : NodeId} {index : Nat} {header : Node} (hspine : t.OnSpine id)
      (hdefines : t.DefinesAt id index header) (hslot : t.HasSlot header.left (some item)) :
      StatementPlace t item
  | first {id link item : NodeId} {n arms : Node} {op : ControlOp} (hplace : StatementPlace t id)
      (hget : t.get? id = some n) (hkind : n.kind = .control op) (hright : n.right = some link)
      (harms : t.get? link = some arms) (hslot : t.HasSlot arms.left (some item)) :
      StatementPlace t item
  | second {id link item : NodeId} {n arms : Node} (hplace : StatementPlace t id)
      (hget : t.get? id = some n) (hkind : n.kind = .control .branch) (hright : n.right = some link)
      (harms : t.get? link = some arms) (hslot : t.HasSlot arms.right (some item)) :
      StatementPlace t item

/-- The places for values: where a statement in its place, or a value in such a place, wants one. -/
inductive ValuePlace (t : Tree) : NodeId → Prop where
  | statement {id item : NodeId} {n : Node} (hplace : t.StatementPlace id)
      (hget : t.get? id = some n) (hwants : t.StatementWants n item) : ValuePlace t item
  | value {id item : NodeId} {n : Node} (hplace : ValuePlace t id) (hget : t.get? id = some n)
      (hwants : t.ValueWants n item) : ValuePlace t item

/-- The nodes along the right links from the root are definitions, the parameters of all but the
first one are variables, and statements and values stand in their places. -/
structure InPlace (t : Tree) : Prop where
  definition : ∀ id, t.OnSpine id →
    ∃ n index, t.get? id = some n ∧ n.kind = .function index ∧ n.left ≠ none
  parameter : ∀ id function header slot, t.OnSpine id → t.root ≠ some id →
    t.DefinesAt id function header → t.HasSlot header.right slot →
    ∃ index, t.kind? slot = some (.variable index)
  statement : ∀ id, t.StatementPlace id → ∃ n, t.get? id = some n ∧ n.IsStatement
  value : ∀ id, t.ValuePlace id → ∃ n, t.get? id = some n ∧ n.IsValue

end Tree

/-! ### Shapes in place -/

namespace Shape

theorem areValues_iff {s : Shape} :
  s.areValues ↔ ∀ item ∈ s.items, item.isPresent → item.isValue
  := by
  induction s with
  | absent => simp [areValues, items]
  | node kind left right ihl ihr =>
    rw [areValues, items, Bool.and_eq_true, ihr, List.forall_mem_cons, Bool.or_eq_true,
      Bool.not_eq_true', ← Bool.not_eq_true, imp_iff_not_or]

theorem areStatements_iff {s : Shape} :
  s.areStatements ↔ ∀ item ∈ s.items, item.isPresent → item.isStatement
  := by
  induction s with
  | absent => simp [areStatements, items]
  | node kind left right ihl ihr =>
    rw [areStatements, items, Bool.and_eq_true, ihr, List.forall_mem_cons, Bool.or_eq_true,
      Bool.not_eq_true', ← Bool.not_eq_true, imp_iff_not_or]

theorem areVariables_iff {s : Shape} :
  s.areVariables ↔ ∀ item ∈ s.items, item.isVariable
  := by
  induction s with
  | absent => simp [areVariables, items]
  | node kind left right ihl ihr =>
    rw [areVariables, items, Bool.and_eq_true, ihr, List.forall_mem_cons]

section Nodes

variable {kind : NodeKind} {left right : Shape}

theorem isValue_binary {op : BinaryOp} (hop : op ≠ .assign) :
  (node (.binary op) left right).isValue ↔ left.isValue ∧ right.isValue
  := by
  cases op with
  | assign => exact absurd rfl hop
  | arithmetic op => exact Bool.and_eq_true_iff
  | comparison op => exact Bool.and_eq_true_iff

theorem isStatement_control {op : ControlOp} :
  (node (.control op) left right).isStatement
    ↔ ∃ held first second, right = node held first second ∧ left.isValue ∧ first.areStatements
      ∧ (op = .branch → second.areStatements)
  := by
  cases right with
  | absent => simp [isStatement]
  | node held first second => cases op <;> simp [isStatement]

theorem areDefinitions_node :
  (node kind left right).areDefinitions
    ↔ ∃ index held body parameters, kind = .function index ∧ left = node held body parameters
      ∧ parameters.areVariables ∧ body.areStatements ∧ right.areDefinitions
  := by
  cases kind with
  | function index =>
    cases left with
    | absent => simp [areDefinitions]
    | node held body parameters => simp [areDefinitions, and_assoc]
  | _ => simp [areDefinitions]

theorem isProgram_node :
  (node kind left right).isProgram
    ↔ ∃ index held body parameters, kind = .function index ∧ left = node held body parameters
      ∧ body.areStatements ∧ right.areDefinitions
  := by
  cases kind with
  | function index =>
    cases left with
    | absent => simp [isProgram]
    | node held body parameters => simp [isProgram, and_comm]
  | _ => simp [isProgram]

variable {vars funcs : SymbolTable}

theorem isPresent_of_binary {op : BinaryOp}
    (h : nodeFindings vars funcs (.binary op) left right = []) :
  left.isPresent ∧ right.isPresent
  := by
  simp only [nodeFindings, ite_eq_left_iff, reduceCtorEq, imp_false, not_not,
    Bool.and_eq_true] at h
  exact h.1

theorem isPresent_of_unary {op : UnaryOp}
    (h : nodeFindings vars funcs (.unary op) left right = []) :
  right.isPresent
  := by
  simp only [nodeFindings, ite_eq_left_iff, reduceCtorEq, imp_false, not_not,
    Bool.and_eq_true] at h
  exact h.1.2

theorem kind?_of_function {index : Nat}
    (h : nodeFindings vars funcs (.function index) left right = []) (hpresent : left.isPresent) :
  left.kind? = some .separator
  := by
  simp only [nodeFindings, List.append_eq_nil_iff, ite_eq_left_iff, reduceCtorEq, imp_false,
    not_not, Bool.or_eq_true, beq_iff_eq, hpresent, Bool.not_true, Bool.false_eq_true,
    false_or] at h
  exact h.2

end Nodes

end Shape

namespace Tree

variable {t : Tree}

/-! ### What is seen from places -/

theorem Unfolds.eq_node {id : NodeId} {n : Node} {v : Unfolding} (hu : t.Unfolds (some id) v)
    (hget : t.get? id = some n) :
  ∃ left right, v = .node id n.kind left right ∧ t.Unfolds n.left left ∧ t.Unfolds n.right right
  := by
  cases hu with
  | node hget' hleft hright =>
    obtain rfl := Option.some.inj (hget.symm.trans hget')
    exact ⟨_, _, rfl, hleft, hright⟩

/-- What is seen from a slot is an item of what is seen from the chain. -/
theorem HasSlot.unfolds {head slot : Option NodeId} {v : Unfolding} (h : t.HasSlot head slot)
    (hu : t.Unfolds head v) :
  ∃ w, t.Unfolds slot w ∧ w.shape ∈ v.shape.items
  := by
  induction h generalizing v with
  | here hget =>
    obtain ⟨left, right, rfl, hleft, -⟩ := hu.eq_node hget
    exact ⟨left, hleft, List.mem_cons_self⟩
  | next hget hnext ih =>
    obtain ⟨left, right, rfl, -, hright⟩ := hu.eq_node hget
    obtain ⟨w, hw, hmem⟩ := ih hright
    exact ⟨w, hw, List.mem_cons_of_mem _ hmem⟩

theorem HasSlot.isValue {head : Option NodeId} {id : NodeId} {v : Unfolding}
    (h : t.HasSlot head (some id)) (hu : t.Unfolds head v) (hv : v.shape.areValues) :
  ∃ w, t.Unfolds (some id) w ∧ w.shape.isValue
  := by
  obtain ⟨w, hw, hmem⟩ := h.unfolds hu
  exact ⟨w, hw, Shape.areValues_iff.mp hv _ hmem hw.isSome_link.symm⟩

theorem HasSlot.isStatement {head : Option NodeId} {id : NodeId} {v : Unfolding}
    (h : t.HasSlot head (some id)) (hu : t.Unfolds head v) (hv : v.shape.areStatements) :
  ∃ w, t.Unfolds (some id) w ∧ w.shape.isStatement
  := by
  obtain ⟨w, hw, hmem⟩ := h.unfolds hu
  exact ⟨w, hw, Shape.areStatements_iff.mp hv _ hmem hw.isSome_link.symm⟩

section Accepted

variable {u : Unfolding}

/-- What is seen from a node on the spine: a definition, with statements in its body and variables
as its parameters unless it is the root, and further definitions after it. -/
theorem OnSpine.unfolds (hu : t.Unfolds t.root u) (hprogram : u.shape.isProgram) {id : NodeId}
    (h : t.OnSpine id) :
  ∃ n index left right held body parameters,
    t.get? id = some n ∧ t.Unfolds n.left left ∧ t.Unfolds n.right right
      ∧ n.kind = .function index ∧ left.shape = .node held body parameters ∧ body.areStatements
      ∧ (t.root = some id ∨ parameters.areVariables) ∧ right.shape.areDefinitions
  := by
  induction h with
  | root hroot =>
    rw [hroot] at hu
    cases hu with
    | @node _ n left right hget hleft hright =>
      obtain ⟨index, held, body, parameters, hkind, hshape, hstatements, hothers⟩ :=
        Shape.isProgram_node.mp hprogram
      exact ⟨n, index, left, right, held, body, parameters, hget, hleft, hright, hkind, hshape,
        hstatements, .inl hroot, hothers⟩
  | @next id next n hspine hget hlink ih =>
    obtain ⟨n', _, _, v, _, _, _, hget', -, hv, -, -, -, -, hdefinitions⟩ := ih
    obtain rfl := Option.some.inj (hget.symm.trans hget')
    rw [hlink] at hv
    cases hv with
    | @node _ n left right hget hleft hright =>
      obtain ⟨index, held, body, parameters, hkind, hshape, hvariables, hstatements, hothers⟩ :=
        Shape.areDefinitions_node.mp hdefinitions
      exact ⟨n, index, left, right, held, body, parameters, hget, hleft, hright, hkind, hshape,
        hstatements, .inr hvariables, hothers⟩

/-- A node on the spine is a definition. -/
theorem OnSpine.isDefinition (hu : t.Unfolds t.root u) (hprogram : u.shape.isProgram)
    {id : NodeId} (h : t.OnSpine id) :
  ∃ n index, t.get? id = some n ∧ n.kind = .function index ∧ n.left ≠ none
  := by
  obtain ⟨n, index, left, _, held, body, parameters, hget, hleft, -, hkind, hshape, -⟩ :=
    h.unfolds hu hprogram
  use n, index, hget, hkind
  rw [← Option.isSome_iff_ne_none, hleft.isSome_link, hshape]
  rfl

/-- The body of a definition on the spine holds statements, and its parameters are variables unless
it is the root. -/
theorem OnSpine.header (hu : t.Unfolds t.root u) (hprogram : u.shape.isProgram) {id : NodeId}
    {index : Nat} {header : Node} (h : t.OnSpine id) (hdefines : t.DefinesAt id index header) :
  ∃ body parameters, t.Unfolds header.left body ∧ t.Unfolds header.right parameters
    ∧ body.shape.areStatements ∧ (t.root = some id ∨ parameters.shape.areVariables)
  := by
  obtain ⟨n, _, left, _, _, _, _, hget, hleft, -, -, hshape, hstatements, hvariables, -⟩ :=
    h.unfolds hu hprogram
  obtain ⟨n', link, hget', -, hlink, hheader, -⟩ := hdefines
  obtain rfl := Option.some.inj (hget.symm.trans hget')
  rw [hlink] at hleft
  obtain ⟨body, parameters, rfl, hbody, hparameters⟩ := hleft.eq_node hheader
  cases hshape
  exact ⟨body, parameters, hbody, hparameters, hstatements, hvariables⟩

theorem StatementPlace.isStatement (hu : t.Unfolds t.root u) (hprogram : u.shape.isProgram)
    {id : NodeId} (h : t.StatementPlace id) :
  ∃ v, t.Unfolds (some id) v ∧ v.shape.isStatement
  := by
  induction h with
  | body hspine hdefines hslot =>
    obtain ⟨body, -, hbody, -, hstatements, -⟩ := hspine.header hu hprogram hdefines
    apply hslot.isStatement hbody hstatements
  | @first id link item n arms op hplace hget hkind hright harms hslot ih =>
    obtain ⟨v, hv, hstatement⟩ := ih
    obtain ⟨left, right, rfl, -, hr⟩ := hv.eq_node hget
    rw [hright] at hr
    obtain ⟨first, second, rfl, hfirst, -⟩ := hr.eq_node harms
    rw [Unfolding.shape, hkind] at hstatement
    obtain ⟨_, _, _, hshape, -, hstatements, -⟩ := Shape.isStatement_control.mp hstatement
    cases hshape
    apply hslot.isStatement hfirst hstatements
  | @second id link item n arms hplace hget hkind hright harms hslot ih =>
    obtain ⟨v, hv, hstatement⟩ := ih
    obtain ⟨left, right, rfl, -, hr⟩ := hv.eq_node hget
    rw [hright] at hr
    obtain ⟨first, second, rfl, -, hsecond⟩ := hr.eq_node harms
    rw [Unfolding.shape, hkind] at hstatement
    obtain ⟨_, _, _, hshape, -, -, hstatements⟩ := Shape.isStatement_control.mp hstatement
    cases hshape
    apply hslot.isStatement hsecond (hstatements rfl)

theorem ValuePlace.isValue (hu : t.Unfolds t.root u) (hprogram : u.shape.isProgram)
    {id : NodeId} (h : t.ValuePlace id) :
  ∃ v, t.Unfolds (some id) v ∧ v.shape.isValue
  := by
  induction h with
  | @statement id item n hplace hget hwants =>
    obtain ⟨v, hv, hstatement⟩ := hplace.isStatement hu hprogram
    obtain ⟨left, right, rfl, hleft, hright⟩ := hv.eq_node hget
    rw [Unfolding.shape] at hstatement
    cases hwants with
    | operand hkind hlink =>
      rw [hlink] at hright
      use right, hright
      rcases hkind with hkind | hkind | ⟨op, hkind⟩
      · rwa [hkind] at hstatement
      · rwa [hkind] at hstatement
      · rwa [hkind] at hstatement
    | condition hkind hlink =>
      rw [hlink] at hleft
      rw [hkind] at hstatement
      obtain ⟨_, _, _, -, hvalue, -⟩ := Shape.isStatement_control.mp hstatement
      exact ⟨left, hleft, hvalue⟩
    | argument hcalls hslot =>
      apply hslot.isValue hright
      rw [hcalls.1, Shape.isStatement, Bool.and_eq_true] at hstatement
      apply hstatement.2
  | @value id item n hplace hget hwants ih =>
    obtain ⟨v, hv, hvalue⟩ := ih
    obtain ⟨left, right, rfl, hleft, hright⟩ := hv.eq_node hget
    rw [Unfolding.shape] at hvalue
    cases hwants with
    | left hkind hop hlink =>
      rw [hlink] at hleft
      rw [hkind] at hvalue
      exact ⟨left, hleft, ((Shape.isValue_binary hop).mp hvalue).1⟩
    | right hkind hop hlink =>
      rw [hlink] at hright
      rw [hkind] at hvalue
      exact ⟨right, hright, ((Shape.isValue_binary hop).mp hvalue).2⟩
    | operand hkind hlink =>
      rw [hlink] at hright
      rw [hkind] at hvalue
      exact ⟨right, hright, hvalue⟩
    | argument hcalls hslot =>
      apply hslot.isValue hright
      rw [hcalls.1, Shape.isValue, Bool.and_eq_true] at hvalue
      apply hvalue.2

theorem Unfolds.calls {n : Node} {left : Unfolding} {index : Nat} (hleft : t.Unfolds n.left left)
    (hkind : n.kind = .function index) (habsent : (!left.shape.isPresent) = true) :
  n.Calls index
  := by
  rw [← hleft.isNone_link, Option.isNone_iff_eq_none] at habsent
  exact ⟨hkind, habsent⟩

/-- What is seen as a statement is one by the kind of its node. -/
theorem Unfolds.nodeIsStatement {id : NodeId} {v : Unfolding} (hu : t.Unfolds (some id) v)
    (h : v.shape.isStatement) :
  ∃ n, t.get? id = some n ∧ n.IsStatement
  := by
  cases hu with
  | @node _ n left right hget hleft hright =>
    use n, hget
    rw [Unfolding.shape] at h
    unfold Node.IsStatement
    cases hkind : n.kind with
    | binary op =>
      cases op with
      | assign => exact .inl rfl
      | _ => rw [hkind] at h; cases h
    | unary op =>
      cases op with
      | math op => rw [hkind] at h; cases h
      | ret => simp
      | input => simp
      | output op => simp
    | control op => simp
    | function index =>
      rw [hkind, Shape.isStatement, Bool.and_eq_true] at h
      exact .inr (.inl ⟨index, hleft.calls hkind h.1⟩)
    | _ => rw [hkind] at h; cases h

/-- What is seen as a value is one by the kind of its node. -/
theorem Unfolds.nodeIsValue {id : NodeId} {v : Unfolding} (hu : t.Unfolds (some id) v)
    (h : v.shape.isValue) :
  ∃ n, t.get? id = some n ∧ n.IsValue
  := by
  cases hu with
  | @node _ n left right hget hleft hright =>
    use n, hget
    rw [Unfolding.shape] at h
    unfold Node.IsValue
    cases hkind : n.kind with
    | binary op =>
      cases op with
      | assign => rw [hkind] at h; cases h
      | _ => simp
    | unary op =>
      cases op with
      | math op => simp
      | input => simp
      | _ => rw [hkind] at h; cases h
    | number value => simp
    | «variable» index => simp
    | function index =>
      rw [hkind, Shape.isValue, Bool.and_eq_true] at h
      have hcalls := hleft.calls hkind h.1
      simp only [reduceCtorEq, false_and, exists_false, false_or]
      exact ⟨index, hcalls⟩
    | _ => rw [hkind] at h; cases h

/-- If lowering accepts what is seen from the root, then all nodes are in place. -/
theorem inPlace_of_isProgram (hu : t.Unfolds t.root u) (hprogram : u.shape.isProgram) :
  t.InPlace
  where
  definition id hspine := hspine.isDefinition hu hprogram
  parameter id function header slot hspine hroot hdefines hslot := by
    obtain ⟨-, parameters, -, hparameters, -, hvariables⟩ := hspine.header hu hprogram hdefines
    obtain ⟨w, hw, hmem⟩ := hslot.unfolds hparameters
    apply leadsToVariable_iff.mp
    rw [hw.leadsToVariable_link]
    exact Shape.areVariables_iff.mp (hvariables.resolve_left hroot) _ hmem
  statement id hplace := by
    obtain ⟨v, hv, hstatement⟩ := hplace.isStatement hu hprogram
    exact hv.nodeIsStatement hstatement
  value id hplace := by
    obtain ⟨v, hv, hvalue⟩ := hplace.isValue hu hprogram
    exact hv.nodeIsValue hvalue

end Accepted

/-! ### What is seen from nodes in place -/

theorem Unfolds.exists_link {link : Option NodeId} {v : Unfolding} (hu : t.Unfolds link v)
    (h : v.shape.isPresent) :
  ∃ id, link = some id
  := by
  rw [← Option.isSome_iff_exists, hu.isSome_link, h]

/-- The items of what is seen from a chain are seen from its slots. -/
theorem Unfolds.exists_slot {head : Option NodeId} {v : Unfolding} (hu : t.Unfolds head v)
    {item : Shape} (h : item ∈ v.shape.items) :
  ∃ slot w, t.HasSlot head slot ∧ t.Unfolds slot w ∧ w.shape = item
  := by
  induction hu with
  | absent => cases h
  | @node id n left right hget hleft hright ihl ihr =>
    rcases List.mem_cons.mp h with rfl | h
    · exact ⟨n.left, left, .here hget, hleft, rfl⟩
    · obtain ⟨slot, w, hslot, hw, hshape⟩ := ihr h
      exact ⟨slot, w, .next hget hslot, hw, hshape⟩

namespace InPlace

mutual

/-- Values in their places are seen as values. -/
theorem isValue (h : t.InPlace) :
  ∀ {link : Option NodeId} {v : Unfolding}, t.Unfolds link v → v.shape.Flawless t.vars t.funcs →
    ∀ {id : NodeId}, link = some id → t.ValuePlace id → v.shape.isValue
  | _, _, @Unfolds.node _ id n left right hget hleft hright, ⟨hnode, hl, hr⟩, _, rfl, hplace => by
      have hoperand : ∀ {link : Option NodeId} {v : Unfolding}, t.Unfolds link v →
          v.shape.isPresent → (∀ id, link = some id → t.ValueWants n id) →
          ∃ id, link = some id ∧ t.ValuePlace id := by
        intro link v hv hpresent hwants
        obtain ⟨id, hid⟩ := hv.exists_link hpresent
        exact ⟨id, hid, .value hplace hget (hwants id hid)⟩
      obtain ⟨n', hget', hvalue⟩ := h.value id hplace
      obtain rfl := Option.some.inj (hget.symm.trans hget')
      rcases hvalue with ⟨value, hkind⟩ | ⟨index, hkind⟩ | ⟨op, hkind, hop⟩ | hkind | ⟨op, hkind⟩ |
        ⟨index, hcalls⟩
      · rw [Unfolding.shape, hkind]
        rfl
      · rw [Unfolding.shape, hkind]
        rfl
      · rw [hkind] at hnode
        obtain ⟨hpresentl, hpresentr⟩ := Shape.isPresent_of_binary hnode
        obtain ⟨first, hfirst, hplacel⟩ := hoperand hleft hpresentl fun _ => .left hkind hop
        obtain ⟨second, hsecond, hplacer⟩ := hoperand hright hpresentr fun _ => .right hkind hop
        rw [Unfolding.shape, hkind, Shape.isValue_binary hop]
        exact ⟨isValue h hleft hl hfirst hplacel, isValue h hright hr hsecond hplacer⟩
      · rw [Unfolding.shape, hkind]
        rfl
      · rw [hkind] at hnode
        obtain ⟨operand, hlink, hplacer⟩ :=
          hoperand hright (Shape.isPresent_of_unary hnode) fun _ => .operand hkind
        rw [Unfolding.shape, hkind]
        exact isValue h hright hr hlink hplacer
      · rw [Unfolding.shape, hcalls.1, Shape.isValue, Bool.and_eq_true, ← hleft.isNone_link,
          hcalls.2]
        use rfl
        apply areValues h hright hr
        intro item hslot
        exact .value hplace hget (.argument hcalls hslot)

/-- Chains of values in their places are seen as such. -/
theorem areValues (h : t.InPlace) :
  ∀ {head : Option NodeId} {v : Unfolding}, t.Unfolds head v → v.shape.Flawless t.vars t.funcs →
    (∀ id, t.HasSlot head (some id) → t.ValuePlace id) → v.shape.areValues
  | _, _, .absent, _, _ => rfl
  | _, _, @Unfolds.node _ id n left right hget hleft hright, ⟨_, hl, hr⟩, hplaces => by
      rw [Unfolding.shape, Shape.areValues, Bool.and_eq_true, Bool.or_eq_true, Bool.not_eq_true',
        ← Bool.not_eq_true, ← imp_iff_not_or]
      constructor
      · intro hpresent
        obtain ⟨item, hitem⟩ := hleft.exists_link hpresent
        apply isValue h hleft hl hitem
        apply hplaces
        rw [← hitem]
        exact .here hget
      · apply areValues h hright hr
        intro item hslot
        exact hplaces item (.next hget hslot)

end

mutual

/-- Statements in their places are seen as statements. -/
theorem isStatement (h : t.InPlace) :
  ∀ {link : Option NodeId} {v : Unfolding}, t.Unfolds link v → v.shape.Flawless t.vars t.funcs →
    ∀ {id : NodeId}, link = some id → t.StatementPlace id → v.shape.isStatement
  | _, _, @Unfolds.node _ id n left right hget hleft hright, ⟨hnode, hl, hr⟩, _, rfl, hplace => by
      have hvalue : ∀ {link : Option NodeId} {v : Unfolding}, t.Unfolds link v →
          v.shape.Flawless t.vars t.funcs → v.shape.isPresent →
          (∀ id, link = some id → t.StatementWants n id) → v.shape.isValue := by
        intro link v hv hflawless hpresent hwants
        obtain ⟨id, hid⟩ := hv.exists_link hpresent
        exact h.isValue hv hflawless hid (.statement hplace hget (hwants id hid))
      obtain ⟨n', hget', hstatement⟩ := h.statement id hplace
      obtain rfl := Option.some.inj (hget.symm.trans hget')
      rcases hstatement with hkind | ⟨index, hcalls⟩ | hkind | hkind | ⟨op, hkind⟩ | ⟨op, hkind⟩
      · rw [hkind] at hnode
        rw [Unfolding.shape, hkind]
        exact hvalue hright hr (Shape.isPresent_of_binary hnode).2 fun _ => .operand (.inl hkind)
      · rw [Unfolding.shape, hcalls.1, Shape.isStatement, Bool.and_eq_true, ← hleft.isNone_link,
          hcalls.2]
        use rfl
        apply h.areValues hright hr
        intro item hslot
        exact .statement hplace hget (.argument hcalls hslot)
      · rw [hkind] at hnode
        rw [Unfolding.shape, hkind]
        exact hvalue hright hr (Shape.isPresent_of_unary hnode) fun _ =>
          .operand (.inr (.inl hkind))
      · rw [Unfolding.shape, hkind]
        rfl
      · rw [hkind] at hnode
        rw [Unfolding.shape, hkind]
        exact hvalue hright hr (Shape.isPresent_of_unary hnode) fun _ =>
          .operand (.inr (.inr ⟨op, hkind⟩))
      · rw [hkind] at hnode
        obtain ⟨hpresent, first, second, hshape⟩ := Shape.arms_of_control hnode
        have hcondition := hvalue hleft hl hpresent fun _ => .condition hkind
        obtain ⟨link, hlink⟩ := hright.exists_link (by rw [hshape]; rfl)
        obtain ⟨arms, harms, hfirst, hsecond⟩ := areArms h hright hr hlink hshape
        rw [Unfolding.shape, hkind, Shape.isStatement_control]
        use .separator, first, second, hshape, hcondition
        constructor
        · apply hfirst
          intro item hslot
          exact .first hplace hget hkind hlink harms hslot
        · rintro rfl
          apply hsecond
          intro item hslot
          exact .second hplace hget hkind hlink harms hslot

/-- The arms of a branch or loop are seen as chains of statements where these are in place. -/
theorem areArms (h : t.InPlace) :
  ∀ {link : Option NodeId} {v : Unfolding}, t.Unfolds link v → v.shape.Flawless t.vars t.funcs →
    ∀ {id : NodeId} {held : NodeKind} {first second : Shape}, link = some id →
      v.shape = .node held first second →
      ∃ arms, t.get? id = some arms
        ∧ ((∀ item, t.HasSlot arms.left (some item) → t.StatementPlace item) →
          first.areStatements)
        ∧ ((∀ item, t.HasSlot arms.right (some item) → t.StatementPlace item) →
          second.areStatements)
  | _, _, @Unfolds.node _ id n left right hget hleft hright, ⟨_, hl, hr⟩, _, _, _, _, rfl, rfl =>
      ⟨n, hget, areStatements h hleft hl, areStatements h hright hr⟩

/-- Chains of statements in their places are seen as such. -/
theorem areStatements (h : t.InPlace) :
  ∀ {head : Option NodeId} {v : Unfolding}, t.Unfolds head v → v.shape.Flawless t.vars t.funcs →
    (∀ id, t.HasSlot head (some id) → t.StatementPlace id) → v.shape.areStatements
  | _, _, .absent, _, _ => rfl
  | _, _, @Unfolds.node _ id n left right hget hleft hright, ⟨_, hl, hr⟩, hplaces => by
      rw [Unfolding.shape, Shape.areStatements, Bool.and_eq_true, Bool.or_eq_true,
        Bool.not_eq_true', ← Bool.not_eq_true, ← imp_iff_not_or]
      constructor
      · intro hpresent
        obtain ⟨item, hitem⟩ := hleft.exists_link hpresent
        apply isStatement h hleft hl hitem
        apply hplaces
        rw [← hitem]
        exact .here hget
      · apply areStatements h hright hr
        intro item hslot
        exact hplaces item (.next hget hslot)

end

/-- A node on the spine is seen as a definition. -/
theorem header (h : t.InPlace) {id : NodeId} {n : Node} {left : Unfolding} {right : Shape}
    (hspine : t.OnSpine id) (hget : t.get? id = some n) (hleft : t.Unfolds n.left left)
    (hnode : Shape.nodeFindings t.vars t.funcs n.kind left.shape right = [])
    (hl : left.shape.Flawless t.vars t.funcs) :
  ∃ index held body parameters, n.kind = .function index ∧ left.shape = .node held body parameters
    ∧ body.areStatements ∧ (t.root ≠ some id → parameters.areVariables)
  := by
  obtain ⟨n', index, hget', hkind, hpresent⟩ := h.definition id hspine
  obtain rfl := Option.some.inj (hget.symm.trans hget')
  obtain ⟨link, hlink⟩ := Option.ne_none_iff_exists'.mp hpresent
  rw [hkind] at hnode
  rw [hlink] at hleft
  cases hleft with
  | @node _ header body parameters hheader hbody hparameters =>
    have hseparator : header.kind = .separator :=
      Option.some.inj (Shape.kind?_of_function hnode rfl)
    have hdefines : t.DefinesAt id index header :=
      ⟨n, link, hget, hkind, hlink, hheader, hseparator⟩
    use index, header.kind, body.shape, parameters.shape, hkind, rfl
    constructor
    · apply h.areStatements hbody hl.2.1
      intro item hslot
      exact .body hspine hdefines hslot
    · intro hroot
      apply Shape.areVariables_iff.mpr
      intro item hitem
      obtain ⟨slot, w, hslot, hw, rfl⟩ := hparameters.exists_slot hitem
      rw [← hw.leadsToVariable_link]
      exact leadsToVariable_iff.mpr (h.parameter id index header slot hspine hroot hdefines hslot)

/-- The nodes along right links are seen as definitions if they stand on the spine, after the
root. -/
theorem areDefinitions (h : t.InPlace) {link : Option NodeId} {v : Unfolding}
    (hu : t.Unfolds link v) (hs : v.shape.Flawless t.vars t.funcs)
    (hspine : ∀ id, link = some id → t.OnSpine id) (hroot : ∀ id ∈ v.ids, t.root ≠ some id) :
  v.shape.areDefinitions
  := by
  induction hu with
  | absent => rfl
  | @node id n left right hget hleft hright ihl ihr =>
    obtain ⟨hnode, hl, hr⟩ := hs
    have hid := hspine id rfl
    obtain ⟨index, held, body, parameters, hkind, hshape, hstatements, hvariables⟩ :=
      h.header hid hget hleft hnode hl
    rw [Unfolding.shape, Shape.areDefinitions_node]
    use index, held, body, parameters, hkind, hshape, hvariables (hroot id List.mem_cons_self),
      hstatements
    apply ihr hr
    · intro next hnext
      exact .next hid hget hnext
    · intro other hother
      exact hroot other (List.mem_cons_of_mem _ (List.mem_append_right _ hother))

/-- If all nodes are in place, then lowering accepts what is seen from the root. -/
theorem isProgram (h : t.InPlace) {u : Unfolding} (hu : t.Unfolds t.root u)
    (hpresent : u.shape.isPresent) (hs : u.shape.Flawless t.vars t.funcs) :
  u.shape.isProgram
  := by
  obtain ⟨root, hroot⟩ := hu.exists_link hpresent
  rw [hroot] at hu
  cases hu with
  | @node _ n left right hget hleft hright =>
    obtain ⟨hnode, hl, hr⟩ := hs
    have hspine : t.OnSpine root := .root hroot
    obtain ⟨index, held, body, parameters, hkind, hshape, hstatements, -⟩ :=
      h.header hspine hget hleft hnode hl
    rw [Unfolding.shape, Shape.isProgram_node]
    use index, held, body, parameters, hkind, hshape, hstatements
    apply h.areDefinitions hright hr
    · intro next hnext
      exact .next hspine hget hnext
    · -- the root does not occur below itself
      intro id hid heq
      obtain rfl := Option.some.inj (hroot.symm.trans heq)
      exact (Unfolds.node hget hleft hright).top_not_mem.2 hid

end InPlace

end Tree

/-- A tree in which verification finds nothing has code exactly if its nodes are in place in the
arena.  Otherwise some node is malformed, and not because its links lead on without end. -/
theorem generate_ok_iff_inPlace {t : Tree} (hverify : t.verify = ∅) (listing : Listing) :
  ((∃ code, (generate t listing).result = .ok code) ↔ t.InPlace)
    ∧ (¬ t.InPlace → ∃ id malformation, malformation ≠ .endless
      ∧ (generate t listing).result = .error (.lower (.malformed id malformation)))
  := by
  obtain ⟨u, hu⟩ := Tree.verify_eq_empty_iff.mp hverify
  have hprogram : u.shape.isProgram ↔ t.InPlace :=
    ⟨Tree.inPlace_of_isProgram hu.unfolds, fun h => h.isProgram hu.unfolds hu.isPresent hu.flawless⟩
  rw [← hprogram]
  rcases hu.generate_decides listing with ⟨hok, hcode⟩ | ⟨hnot, id, malformation, hfinite, herror⟩
  · exact ⟨⟨fun _ => hok, fun _ => hcode⟩, fun hnot => absurd hok hnot⟩
  · rw [hnot, herror]
    exact ⟨⟨by rintro ⟨code, ⟨⟩⟩, nofun⟩, fun _ => ⟨id, malformation, hfinite, rfl⟩⟩

/-- A tree whose entry branches or loops, with a number in the second arm. -/
def numberInSecondArm (op : ControlOp) : String :=
  "( 6 0 ( 0 23 ( 0 23 ( 3 " ++ toString op.code
    ++ " ( 4 0 _ _ ) ( 0 23 _ ( 0 23 ( 4 1 _ _ ) _ ) ) ) _ ) _ ) _ )"

/-- The second arm of a loop is no place for statements, that of a branch is. -/
theorem generate_numberInSecondArm :
  (∃ t, Tree.read (numberInSecondArm .loop) = .ok t ∧ t.verify = ∅ ∧ t.InPlace)
    ∧ ∃ t, Tree.read (numberInSecondArm .branch) = .ok t ∧ t.verify = ∅ ∧ ∃ id malformation,
      malformation ≠ .endless
        ∧ (generate t {}).result = .error (.lower (.malformed id malformation))
  := by
  have hread : ∀ op, (Tree.read (numberInSecondArm op)).toOption.map
      (fun t => (t.verify, (generate t {}).result.toOption.isSome)) = some (∅, op == .loop) := by
    intro op
    cases op with
    | branch => decide +kernel
    | loop => decide +kernel
  constructor
  · obtain ⟨t, ht, hfound⟩ := Option.map_eq_some_iff.mp (hread .loop)
    obtain ⟨hverify, hsome⟩ := Prod.mk.inj hfound
    obtain ⟨code, hcode⟩ := Option.isSome_iff_exists.mp hsome
    use t, eq_ok_of_toOption ht, hverify
    apply (generate_ok_iff_inPlace hverify {}).1.mp ⟨code, eq_ok_of_toOption hcode⟩
  · obtain ⟨t, ht, hfound⟩ := Option.map_eq_some_iff.mp (hread .branch)
    obtain ⟨hverify, hnone⟩ := Prod.mk.inj hfound
    use t, eq_ok_of_toOption ht, hverify
    apply (generate_ok_iff_inPlace hverify {}).2
    intro hplace
    obtain ⟨code, hcode⟩ := (generate_ok_iff_inPlace hverify {}).1.mpr hplace
    rw [hcode] at hnone
    cases hnone

end StackCompiler
