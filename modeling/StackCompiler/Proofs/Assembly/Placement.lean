import StackCompiler.Proofs.Compile.Outcomes
import StackCompiler.Proofs.Tree.Verified

/-!
# Placement

Verification looks at each node and its children, whereas lowering also asks where a node stands: on
the chain of definitions, among the parameters of a function, among the statements of a body, or
where a value is wanted.  A verified tree has code exactly if all its nodes are in place.
-/

namespace StackCompiler

/-! ### Nodes in place -/

namespace Shape

mutual

/-- Whether a shape can stand where a value is wanted. -/
def isValue : Shape → Bool
  | absent => false
  | node kind left right =>
    match kind with
    | .number _ => true
    | .variable _ => true
    | .binary .assign => false
    | .binary _ => left.isValue && right.isValue
    | .unary .input => true
    | .unary (.math _) => right.isValue
    | .function _ => !left.isPresent && right.areValues
    | _ => false

/-- Whether all items of a chain but the empty ones can stand where a value is wanted. -/
def areValues : Shape → Bool
  | absent => true
  | node _ item next => (!item.isPresent || item.isValue) && next.areValues

end

mutual

/-- Whether a shape can stand where a statement is wanted.  The second arm of a loop is not looked
at. -/
def isStatement : Shape → Bool
  | absent => false
  | node kind left right =>
    match kind with
    | .binary .assign => right.isValue
    | .function _ => !left.isPresent && right.areValues
    | .unary .ret => right.isValue
    | .unary .input => true
    | .unary (.output _) => right.isValue
    | .control op =>
      match right with
      | absent => false
      | node _ first second =>
        left.isValue && (first.areStatements && (op == .loop || second.areStatements))
    | _ => false

/-- Whether all items of a chain but the empty ones can stand where a statement is wanted. -/
def areStatements : Shape → Bool
  | absent => true
  | node _ item next => (!item.isPresent || item.isStatement) && next.areStatements

end

/-- Whether all items of a chain are variables. -/
def areVariables : Shape → Bool
  | absent => true
  | node _ item next => item.isVariable && next.areVariables

/-- Whether all nodes along the right links define functions, with variables for parameters and
statements for a body. -/
def areDefinitions : Shape → Bool
  | absent => true
  | node (.function _) (node _ body parameters) next =>
    parameters.areVariables && body.areStatements && next.areDefinitions
  | node _ _ _ => false

/-- Whether all nodes of a tree are in place.  The parameters of the definition that runs first are
not looked at. -/
def isProgram : Shape → Bool
  | node (.function _) (node _ body _) next => next.areDefinitions && body.areStatements
  | _ => false

/-- Nothing is wrong with any single node. -/
def Flawless (vars funcs : SymbolTable) (s : Shape) : Prop :=
  s.Every fun kind left right => nodeFindings vars funcs kind left right = []

/-- If nothing is collected from a shape, then nothing is collected from any node of it. -/
theorem every_of_collect_eq_nil {α : Type} {f : NodeKind → Shape → Shape → List α} {s : Shape}
    (h : s.collect f = []) :
  s.Every fun kind left right => f kind left right = []
  := by
  induction s with
  | absent => trivial
  | node kind left right ihl ihr =>
    simp only [collect, List.append_eq_nil_iff] at h
    use h.1, ihl h.2.1, ihr h.2.2

section NodeFindings

variable {vars funcs : SymbolTable} {left right : Shape}

/-- An assignment without findings has a variable for its target. -/
theorem isVariable_of_assign (h : nodeFindings vars funcs (.binary .assign) left right = []) :
  left.isVariable
  := by
  simp only [nodeFindings, bne_self_eq_false, Bool.false_or, ite_eq_left_iff, reduceCtorEq,
    imp_false, not_not, Bool.and_eq_true] at h
  apply h.2

/-- An input without findings has a variable for its target. -/
theorem isVariable_of_input (h : nodeFindings vars funcs (.unary .input) left right = []) :
  right.isVariable
  := by
  simp only [nodeFindings, bne_self_eq_false, Bool.false_or, ite_eq_left_iff, reduceCtorEq,
    imp_false, not_not, Bool.and_eq_true] at h
  apply h.2

/-- A branch or a loop without findings has a condition and a separator for its arms. -/
theorem arms_of_control {op : ControlOp}
    (h : nodeFindings vars funcs (.control op) left right = []) :
  left.isPresent ∧ ∃ first second, right = node .separator first second
  := by
  simp only [nodeFindings, ite_eq_left_iff, reduceCtorEq, imp_false, not_not, Bool.and_eq_true,
    beq_iff_eq] at h
  obtain ⟨hleft, hright⟩ := h
  use hleft
  cases right with
  | absent => cases hright
  | node kind first second =>
    obtain rfl := Option.some.inj hright
    exact ⟨first, second, rfl⟩

end NodeFindings

end Shape

/-! ### Lowering of nodes in place -/

/-- A lowering succeeds exactly if the condition holds, and fails only because of a malformed
node that is not malformed by what lies beyond its links. -/
def Decides {α : Type} (result : Except LoweringError α) (condition : Bool) : Prop :=
  match result with
  | .ok _ => condition = true
  | .error error =>
    condition = false ∧ ∃ id malformation, malformation ≠ .endless
      ∧ error = .malformed id malformation

namespace Decides

variable {α β : Type}

/-- What succeeds decides for a condition that holds. -/
theorem ok (a : α) :
  Decides (.ok a) true
  := rfl

/-- A malformed node decides against a condition, unless it only says that the walk has no end. -/
theorem malformed (id : NodeId) {malformation : Malformation} (h : malformation ≠ .endless) :
  Decides (.error (.malformed id malformation) : Except LoweringError α) false
  := ⟨rfl, id, malformation, h, rfl⟩

/-- One part after the other decides whether both conditions hold. -/
theorem bind {x : Except LoweringError α} {f : α → Except LoweringError β} {p q : Bool}
    (hx : Decides x p) (hf : ∀ a, Decides (f a) q) :
  Decides (x >>= f) (p && q)
  := by
  cases x with
  | error error =>
    obtain ⟨rfl, herror⟩ := hx
    exact ⟨rfl, herror⟩
  | ok a =>
    obtain rfl : p = true := hx
    apply hf

/-- What follows a lowering decides nothing if it always succeeds. -/
theorem bind_ok {x : Except LoweringError α} {f : α → Except LoweringError β} {p : Bool}
    (hx : Decides x p) (hf : ∀ a, Decides (f a) true) :
  Decides (x >>= f) p
  := by
  rw [← Bool.and_true p]
  apply hx.bind hf

/-- What is made of the result does not change the decision. -/
theorem map {x : Except LoweringError α} {f : α → β} {p : Bool} (hx : Decides x p) :
  Decides (x >>= fun a => return f a) p
  := hx.bind_ok fun a => ok (f a)

end Decides

namespace Lower

variable {vars funcs : SymbolTable} {entry : Nat}

/-- Looking for a slot decides whether the node is a variable. -/
theorem slot_decides {u : Unfolding} {s : Shape} (parent : NodeId) (h : u.Shows s) :
  Decides (slot parent u) s.isVariable
  := by
  cases h with
  | absent => exact .malformed _ (by decide)
  | @node id kind left right l r hleft hright =>
    cases kind with
    | «variable» index => apply Decides.ok
    | _ => exact .malformed _ (by decide)

/-- Looking for the slots of parameters decides whether all items are variables. -/
theorem slots_decides {u : Unfolding} {s : Shape} (parent : NodeId) (h : u.Shows s) :
  Decides (slots parent u) s.areVariables
  := by
  induction h with
  | absent => apply Decides.ok
  | node id hleft hright ihl ihr =>
    apply (slot_decides parent hleft).bind
    intro first
    apply ihr.map

mutual

/-- Lowering a flawless expression decides whether all its nodes are values. -/
theorem expression_decides :
  ∀ {u : Unfolding} {s : Shape} (parent : NodeId), u.Shows s → s.Flawless vars funcs →
    Decides (expression entry parent u) s.isValue
  | _, _, parent, .absent, _ => Decides.malformed parent (by decide)
  | _, _, _, @Unfolding.Shows.node id kind left right l r hleft hright, ⟨hnode, hl, hr⟩ => by
      have hfirst := expression_decides id hleft hl
      have hsecond := expression_decides id hright hr
      cases kind with
      | hole => cases hnode
      | separator => exact .malformed _ (by decide)
      | binary op =>
        cases op with
        | assign => exact .malformed _ (by decide)
        | arithmetic op =>
          apply hfirst.bind
          intro first
          apply hsecond.map
        | comparison op =>
          apply hfirst.bind
          intro first
          apply hsecond.map
      | unary op =>
        cases op with
        | math op => apply hsecond.map
        | output op => exact .malformed _ (by decide)
        | ret => exact .malformed _ (by decide)
        | input =>
          have hslot := slot_decides id hright
          rw [Shape.isVariable_of_input hnode] at hslot
          apply hslot.map
      | control op => exact .malformed _ (by decide)
      | number value => apply Decides.ok
      | «variable» index => apply Decides.ok
      | function index =>
        cases hleft with
        | absent => apply (arguments_decides hright hr).map
        | node _ _ _ => exact .malformed _ (by decide)

/-- Lowering flawless arguments decides whether all of them are values. -/
theorem arguments_decides :
  ∀ {u : Unfolding} {s : Shape}, u.Shows s → s.Flawless vars funcs →
    Decides (arguments entry u) s.areValues
  | _, _, .absent, _ => Decides.ok []
  | _, _, .node id .absent hright, ⟨_, _, hr⟩ => (arguments_decides hright hr).map
  | _, _, .node id hleft@(.node _ _ _) hright, ⟨_, hl, hr⟩ => by
      apply (expression_decides id hleft hl).bind
      intro first
      apply (arguments_decides hright hr).map

end

mutual

/-- Lowering a flawless item of a body decides whether it is empty or a statement. -/
theorem statement_decides :
  ∀ {u : Unfolding} {s : Shape} (numbering : Numbering), u.Shows s → s.Flawless vars funcs →
    Decides (statement entry u numbering) (!s.isPresent || s.isStatement)
  | _, _, numbering, .absent, _ => Decides.ok ([], numbering)
  | _, _, numbering, @Unfolding.Shows.node id kind left right l r hleft hright,
      ⟨hnode, hl, hr⟩ => by
      have hvalue : Decides (expression entry id right) r.isValue :=
        expression_decides id hright hr
      cases kind with
      | hole => cases hnode
      | separator => exact .malformed _ (by decide)
      | binary op =>
        cases op with
        | assign =>
          have hslot := slot_decides id hleft
          rw [Shape.isVariable_of_assign hnode] at hslot
          apply hvalue.bind_ok
          intro value
          apply hslot.map
        | arithmetic op => exact .malformed _ (by decide)
        | comparison op => exact .malformed _ (by decide)
      | unary op =>
        cases op with
        | math op => exact .malformed _ (by decide)
        | output op => apply hvalue.map
        | ret => apply hvalue.map
        | input =>
          have hslot := slot_decides id hright
          rw [Shape.isVariable_of_input hnode] at hslot
          apply hslot.map
      | control op =>
        obtain ⟨hpresent, first, second, rfl⟩ := Shape.arms_of_control hnode
        cases hleft with
        | absent => cases hpresent
        | node other hleft hright' =>
          cases hright with
          | node arms hfirst hsecond =>
            have htest : Decides (expression entry id _) _ :=
              expression_decides id (.node other hleft hright') hl
            cases op with
            | branch =>
              apply htest.bind
              intro test
              apply (statements_decides _ hfirst hr.2.1).bind
              rintro ⟨consequence, middle⟩
              apply (statements_decides middle hsecond hr.2.2).map
            | loop =>
              apply htest.bind
              intro test
              rw [beq_self_eq_true, Bool.true_or, Bool.and_true]
              apply (statements_decides _ hfirst hr.2.1).map
      | number value => exact .malformed _ (by decide)
      | «variable» index => exact .malformed _ (by decide)
      | function index =>
        cases hleft with
        | absent => apply (arguments_decides hright hr).map
        | node _ _ _ => exact .malformed _ (by decide)

/-- Lowering a flawless body decides whether all items of it are statements. -/
theorem statements_decides :
  ∀ {u : Unfolding} {s : Shape} (numbering : Numbering), u.Shows s → s.Flawless vars funcs →
    Decides (statements entry u numbering) s.areStatements
  | _, _, numbering, .absent, _ => Decides.ok ([], numbering)
  | _, _, numbering, .node id hleft hright, ⟨_, hl, hr⟩ => by
      apply (statement_decides numbering hleft hl).bind
      rintro ⟨first, middle⟩
      apply (statements_decides middle hright hr).map

end

/-- Lowering flawless functions decides whether all nodes along the right links define functions. -/
theorem definitions_decides {u : Unfolding} {s : Shape} (numbering : Numbering) (h : u.Shows s)
    (hs : s.Flawless vars funcs) :
  Decides (definitions entry u numbering) s.areDefinitions
  := by
  induction h generalizing numbering with
  | absent => apply Decides.ok
  | @node id kind left right l r hleft hright ihl ihr =>
    obtain ⟨hnode, hl, hr⟩ := hs
    cases kind with
    | function index =>
      cases hleft with
      | absent => exact .malformed _ (by decide)
      | node other hbody hparameters =>
        rw [Shape.areDefinitions]
        apply Decides.bind
        · apply (slots_decides id hparameters).bind
          intro slots
          apply (statements_decides numbering hbody hl.2.1).map
        · rintro ⟨first, middle⟩
          apply (ihr middle hr).map
    | _ => exact .malformed _ (by decide)

/-- Lowering a flawless tree decides whether every node stands where a node of its kind belongs. -/
theorem program_decides {u : Unfolding} {s : Shape} (numbering : Numbering) (h : u.Shows s)
    (hpresent : s.isPresent) (hs : s.Flawless vars funcs) :
  Decides (program u numbering) s.isProgram
  := by
  cases h with
  | absent => cases hpresent
  | @node id kind left right l r hleft hright =>
    obtain ⟨hnode, hl, hr⟩ := hs
    cases kind with
    | function index =>
      cases hleft with
      | absent => exact .malformed _ (by decide)
      | node other hbody hparameters =>
        apply (definitions_decides numbering hright hr).bind
        rintro ⟨functions, middle⟩
        apply (statements_decides middle hbody hl.2.1).map
    | _ => exact .malformed _ (by decide)

end Lower

/-! ### Verified trees -/

namespace Tree.Verified

variable {t : Tree} {u : Unfolding}

/-- A verified tree has no flaw at any node. -/
theorem flawless (h : t.Verified u) :
  u.shape.Flawless t.vars t.funcs
  := by
  apply Shape.every_of_collect_eq_nil (List.append_eq_nil_iff.mp h.findings).1

/-- A verified tree has code exactly if its nodes are in place, and otherwise some node is
malformed. -/
theorem generate_decides (h : t.Verified u) (listing : Listing) :
  (u.shape.isProgram = true ∧ ∃ code, (generate t listing).result = .ok code)
    ∨ u.shape.isProgram = false ∧ ∃ id malformation, malformation ≠ .endless
      ∧ (generate t listing).result = .error (.lower (.malformed id malformation))
  := by
  have hdecides := Lower.program_decides listing.numbering h.shows h.isPresent h.flawless
  rw [h.unfolds.result_generate, Unfolding.lower]
  cases hprogram : Lower.program u listing.numbering with
  | ok emitted =>
    rw [hprogram] at hdecides
    exact .inl ⟨hdecides, _, rfl⟩
  | error error =>
    rw [hprogram] at hdecides
    obtain ⟨hnot, id, malformation, hfinite, rfl⟩ := hdecides
    exact .inr ⟨hnot, id, malformation, hfinite, rfl⟩

end Tree.Verified

/-- A tree in which verification finds nothing has code exactly if every node stands where a node of
its kind belongs. -/
theorem generate_ok_iff_isProgram {t : Tree} (hverify : t.verify = ∅) (listing : Listing) :
  (∃ code, (generate t listing).result = .ok code) ↔ t.unfolding.shape.isProgram
  := by
  obtain ⟨u, hu⟩ := Tree.verify_eq_empty_iff.mp hverify
  rw [hu.unfolding_eq]
  rcases hu.generate_decides listing with ⟨hprogram, hcode⟩ | ⟨hnot, id, malformation, -, herror⟩
  · exact ⟨fun _ => hprogram, fun _ => hcode⟩
  · rw [hnot, herror]
    exact ⟨by rintro ⟨code, ⟨⟩⟩, nofun⟩

/-- A tree whose entry assigns a variable and calls the function after it. -/
def assignmentAndCall : String :=
  "( 6 0 ( 0 23 ( 0 23 ( 1 20 ( 5 0 _ _ ) ( 4 1 _ _ ) ) ( 0 23 ( 6 1 _ _ ) _ ) ) _ ) "
    ++ "( 6 1 ( 0 23 _ _ ) _ ) )"

/-- The tree of an assignment and a call has no findings, and there is code for it. -/
theorem generate_ok_assignmentAndCall :
  ∃ t, Tree.read assignmentAndCall = .ok t ∧ t.verify = ∅
    ∧ ∃ code, (generate t {}).result = .ok code
  := by
  have hread : (Tree.read assignmentAndCall).toOption.map
      (fun t => (t.verify, t.unfolding.shape.isProgram)) = some (∅, true) := by
    decide +kernel
  obtain ⟨t, ht, hfound⟩ := Option.map_eq_some_iff.mp hread
  obtain ⟨hverify, hprogram⟩ := Prod.mk.inj hfound
  use t, eq_ok_of_toOption ht, hverify
  apply (generate_ok_iff_isProgram hverify {}).mpr hprogram

/-- A tree whose entry assigns what an assignment would give. -/
def nestedAssignment : String :=
  "( 6 0 ( 0 23 ( 0 23 ( 1 20 ( 5 0 _ _ ) ( 1 20 ( 5 0 _ _ ) ( 4 1 _ _ ) ) ) _ ) _ ) _ )"

/-- Verification looks at each node on its own, and does not see an assignment in the place of a
value. -/
theorem generate_not_ok_nestedAssignment :
  ∃ t, Tree.read nestedAssignment = .ok t ∧ t.verify = ∅
    ∧ ¬∃ code, (generate t {}).result = .ok code
  := by
  have hread : (Tree.read nestedAssignment).toOption.map
      (fun t => (t.verify, (generate t {}).result.toOption.isSome)) = some (∅, false) := by
    decide +kernel
  obtain ⟨t, ht, hfound⟩ := Option.map_eq_some_iff.mp hread
  obtain ⟨hverify, hnone⟩ := Prod.mk.inj hfound
  use t, eq_ok_of_toOption ht, hverify
  rintro ⟨code, hcode⟩
  rw [hcode] at hnone
  cases hnone

end StackCompiler
