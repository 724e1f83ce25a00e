import StackCompiler.Proofs.Program.Inverse
import StackCompiler.Proofs.Program.Language

/-!
# Precedence and associativity

What the tree of an expression is, without a parser: the operators say how the operands are grouped.

A math operator takes all that follows it, so it is the last operand of what stands before it.  Of
the operators between the operands, those that multiply, divide or raise to a power bind alike, and
more tightly than those that add or subtract; both kinds group from the left.

The parser has a loop for each of the two kinds, and a math operator enters the outer loop again
from inside the inner one.  The tokens that follow an operand are read by the loops that wait there,
which is why the tree is compared with what both of them have made so far (`Formula.ReadsFrom`).
-/

namespace StackCompiler

/-! ### Groups -/

/-- Items with arithmetic operators between them. -/
structure Joined (α : Type) where
  first : α
  others : List (ArithmeticOp × α) := []

namespace Joined

variable {α β : Type}

/-- One more item in front of the others. -/
def cons (item : α) (op : ArithmeticOp) (joined : Joined α) : Joined α where
  first := item
  others := (op, joined.first) :: joined.others

def map (f : α → β) (joined : Joined α) : Joined β where
  first := f joined.first
  others := joined.others.map fun (op, item) => (op, f item)

def groupsFrom (item : α) : List (ArithmeticOp × α) → Joined (Joined α)
  | [] => { first := { first := item } }
  | (op, next) :: others =>
    let groups := groupsFrom next others
    if op.isAdditive then groups.cons { first := item } op
    else { groups with first := groups.first.cons item op }

/-- The parts between the operators that add or subtract. -/
def groups (joined : Joined α) : Joined (Joined α) :=
  groupsFrom joined.first joined.others

/-- One operation for each operator, which takes all that stands before it. -/
def chainFrom (left : Expr) (others : List (ArithmeticOp × Expr)) : Expr :=
  others.foldl (fun left (op, right) => .arithmetic op left right) left

/-- The tree of items that are grouped from the left. -/
def chain (joined : Joined Expr) : Expr :=
  chainFrom joined.first joined.others

/-- The tree of operands. -/
def tree (operands : Joined Expr) : Expr :=
  (operands.groups.map chain).chain

example (a b c d e : Expr) :
    Joined.tree { first := a, others := [(.sub, b), (.mul, c), (.div, d), (.add, e)] }
      = .arithmetic .add (.arithmetic .sub a (.arithmetic .div (.arithmetic .mul b c) d)) e :=
  rfl

/-- The tree of operands if others stand before them: `product` is what was read of the first group,
and `sum` what was read before that group. -/
def treeAfter (sum product : Expr → Expr) (operands : Joined Expr) : Expr :=
  let groups := operands.groups
  chainFrom (sum (chainFrom (product groups.first.first) groups.first.others))
    (groups.map chain).others

theorem treeAfter_id (operands : Joined Expr) :
  operands.treeAfter id id = operands.tree
  := rfl

section Cons

variable {sum product : Expr → Expr} {item : Expr} {op : ArithmeticOp} {operands : Joined Expr}

/-- A multiplicative operator after an operand goes on with the term. -/
theorem treeAfter_cons_multiplicative (h : op.isAdditive = false) :
  (operands.cons item op).treeAfter sum product
    = operands.treeAfter sum (.arithmetic op (product item))
  := by
  have hgroups : (operands.cons item op).groups
      = { operands.groups with first := operands.groups.first.cons item op } := by
    change (if op.isAdditive then _ else _) = _
    rw [if_neg (by rw [h]; decide)]
    rfl
  rw [treeAfter, hgroups]
  rfl

/-- An additive operator after an operand begins another term. -/
theorem treeAfter_cons_additive (h : op.isAdditive) :
  (operands.cons item op).treeAfter sum product
    = operands.treeAfter (.arithmetic op (sum (product item))) id
  := by
  have hgroups : (operands.cons item op).groups
      = operands.groups.cons { first := item } op := by
    change (if op.isAdditive then _ else _) = _
    rw [if_pos h]
    rfl
  rw [treeAfter, hgroups]
  rfl

end Cons

end Joined

/-! ### Formulas -/

namespace Formula

mutual

/-- What stands between arithmetic operators, up to math operators in front of it. -/
inductive Operand where
  | number (value : Binary64)
  | variable (name : String)
  | input (target : String)
  | call (function : String) (bracketed : Bool) (arguments : List Sequence)
  | parens (inner : Relation)

/-- Operands with arithmetic operators between them and any number of math operators in front of
each. -/
inductive Sequence where
  | last (operand : Operand)
  | math (op : MathOp) (rest : Sequence)
  | join (operand : Operand) (op : ArithmeticOp) (rest : Sequence)

/-- One sequence, or two that are compared. -/
inductive Relation where
  | plain (sequence : Sequence)
  | compared (left : Sequence) (op : Comparison) (right : Sequence)

end

mutual

def Operand.tokens : Operand → List TokenKind
  | .number value => [.number value]
  | .variable name => [.variable name]
  | .input target => [.unary .input, .variable target]
  | .call function bracketed arguments =>
    .function function :: Written.listed bracketed (Sequence.tokensOfAll arguments)
  | .parens inner => .mark .openParen :: (inner.tokens ++ [.mark .closeParen])

def Sequence.tokens : Sequence → List TokenKind
  | .last operand => operand.tokens
  | .math op rest => .unary (.math op) :: rest.tokens
  | .join operand op rest => operand.tokens ++ .binary (.arithmetic op) :: rest.tokens

def Relation.tokens : Relation → List TokenKind
  | .plain sequence => sequence.tokens
  | .compared left op right => left.tokens ++ .binary (.comparison op) :: right.tokens

def Sequence.tokensOfAll : List Sequence → List (List TokenKind)
  | [] => []
  | sequence :: sequences => sequence.tokens :: Sequence.tokensOfAll sequences

end

mutual

def Operand.tree : Operand → Expr
  | .number value => .number value
  | .variable name => .variable name
  | .input target => .input target
  | .call function _ arguments => .call function (Sequence.trees arguments)
  | .parens inner => inner.tree

/-- The operands that are left when the first math operator has taken all that follows it. -/
def Sequence.operands : Sequence → Joined Expr
  | .last operand => { first := operand.tree }
  | .math op rest => { first := .math op rest.operands.tree }
  | .join operand op rest => rest.operands.cons operand.tree op

def Relation.tree : Relation → Expr
  | .plain sequence => sequence.operands.tree
  | .compared left op right => .comparison op left.operands.tree right.operands.tree

def Sequence.trees : List Sequence → List Expr
  | [] => []
  | sequence :: sequences => sequence.operands.tree :: Sequence.trees sequences

end

def Sequence.tree (sequence : Sequence) : Expr :=
  sequence.operands.tree

/-! ### Reading formulas -/

open Parse

variable {funcs : SymbolTable}

/-- The names of a list are those of its items. -/
theorem known_of_mem_items {bracketed : Bool} {items : List (List TokenKind)}
    (h : AllKnown funcs (Written.listed bracketed items)) :
  ∀ item ∈ items, AllKnown funcs item
  := by
  intro item hitem
  apply h.mono
  intro kind hkind
  cases items with
  | nil => cases hitem
  | cons first items =>
    simp only [Written.listed, List.mem_cons, List.mem_append, List.mem_flatMap]
    rcases List.mem_cons.mp hitem with rfl | hitem
    · exact .inr (.inl hkind)
    · exact .inr (.inr (.inl ⟨item, hitem, .inr hkind⟩))

/-- Wherever an operand may begin, the tokens are read, and the loops that wait there make the tree
of the operands after what they have made before. -/
def ReadsFrom (funcs : SymbolTable) (tokens : List TokenKind) (operands : Joined Expr) : Prop :=
  ∀ (fuel inner outer : Nat) (sum product : Expr → Expr) {rest : List TokenKind},
    10 * tokens.length < fuel → 10 * tokens.length < inner → 10 * tokens.length < outer →
    Stops extendsExpression rest →
    fromOperand funcs fuel inner outer sum product (tokens ++ rest)
      = .ok (operands.treeAfter sum product, rest)

namespace ReadsFrom

variable {tokens tokens' : List TokenKind} {operands : Joined Expr} {e : Expr}

/-- Operands are read as the expression that they are grouped to. -/
theorem isExpression (h : ReadsFrom funcs tokens operands) :
  IsExpression funcs tokens operands.tree
  := by
  intro fuel rest hfuel hstops
  rw [expression_eq, ← operands.treeAfter_id]
  apply h _ _ _ _ _ (by omega) (by omega) (by omega) hstops

/-- The last operand is read, and nothing follows it. -/
theorem last (h : IsFactor funcs tokens e) :
  ReadsFrom funcs tokens { first := e }
  := by
  intro fuel inner outer sum product rest hfuel hinner houter hstops
  apply bind_eq_ok.mpr ⟨_, h.reads hfuel hstops.call, _⟩
  apply afterOperand_stops (by omega) (by omega) hstops

/-- The operator takes all operands that follow, and leaves nothing to the loops around it. -/
theorem math (op : MathOp) (h : ReadsFrom funcs tokens operands) :
  ReadsFrom funcs (.unary (.math op) :: tokens) { first := .math op operands.tree }
  := by
  intro fuel inner outer sum product rest hfuel hinner houter hstops
  rw [List.length_cons] at hfuel hinner houter
  obtain ⟨fuel, rfl⟩ := Nat.exists_eq_add_of_le' (show 1 ≤ fuel by omega)
  have hoperand := h.isExpression.reads (show _ ≤ fuel by omega) hstops
  have hprimary : primary funcs (fuel + 1) (.unary (.math op) :: (tokens ++ rest))
      = .ok (.math op operands.tree, rest) := by
    rw [primary]
    exact bind_eq_ok.mpr ⟨_, hoperand, rfl⟩
  apply bind_eq_ok.mpr ⟨_, hprimary, _⟩
  apply afterOperand_stops (by omega) (by omega) hstops

/-- One of the two loops takes the operator, and then both go on after the next operand. -/
theorem join (h : IsFactor funcs tokens e) (op : ArithmeticOp)
    (h' : ReadsFrom funcs tokens' operands) :
  ReadsFrom funcs (tokens ++ .binary (.arithmetic op) :: tokens') (operands.cons e op)
  := by
  intro fuel inner outer sum product rest hfuel hinner houter hstops
  rw [List.length_append, List.length_cons] at hfuel hinner houter
  rw [List.append_assoc, List.cons_append]
  have hleft : primary funcs fuel (tokens ++ .binary (.arithmetic op) :: (tokens' ++ rest))
      = .ok (e, .binary (.arithmetic op) :: (tokens' ++ rest)) :=
    h.reads (by omega) rfl
  obtain ⟨inner, rfl⟩ := Nat.exists_eq_add_of_le' (show 1 ≤ inner by omega)
  obtain ⟨outer, rfl⟩ := Nat.exists_eq_add_of_le' (show 2 ≤ outer by omega)
  apply bind_eq_ok.mpr ⟨_, hleft, _⟩
  dsimp only
  cases hop : op.isAdditive with
  | false =>
    have hmultiplicative : op.isMultiplicative := by simp [ArithmeticOp.isMultiplicative, hop]
    rw [afterOperand_multiplicative hmultiplicative, Joined.treeAfter_cons_multiplicative hop]
    apply h' _ _ _ _ _ (by omega) (by omega) (by omega) hstops
  | true =>
    rw [afterOperand_additive hop, Joined.treeAfter_cons_additive hop]
    apply h' _ _ _ _ _ (by omega) (by omega) (by omega) hstops

end ReadsFrom

mutual

/-- A written operand is read as its tree. -/
theorem Operand.isFactor :
  ∀ (operand : Operand), AllKnown funcs operand.tokens →
    IsFactor funcs operand.tokens operand.tree
  | .number _, _ => fun _ _ _ _ => rfl
  | .variable _, _ => fun _ _ _ _ => rfl
  | .input _, _ => fun _ _ _ _ => rfl
  | .call function bracketed arguments, h => by
      apply isFactor_call (h function List.mem_cons_self)
      apply readsAs_arguments
      apply Sequence.isExpression_each arguments (known_of_mem_items h.of_cons)
  | .parens inner, h => isFactor_parens (inner.isComparison h.of_cons.of_append.1)

/-- Written operands are read one after the other. -/
theorem Sequence.readsFrom :
  ∀ (sequence : Sequence), AllKnown funcs sequence.tokens →
    ReadsFrom funcs sequence.tokens sequence.operands
  | .last operand, h => .last (operand.isFactor h)
  | .math op rest, h => .math op (rest.readsFrom h.of_cons)
  | .join operand op rest, h =>
      .join (operand.isFactor h.of_append.1) op (rest.readsFrom h.of_append.2.of_cons)

/-- A written comparison is read as its tree. -/
theorem Relation.isComparison :
  ∀ (relation : Relation), AllKnown funcs relation.tokens →
    IsComparison funcs relation.tokens relation.tree
  | .plain sequence, h => (sequence.readsFrom h).isExpression.isComparison
  | .compared left op right, h =>
      isComparison_comparison op (left.readsFrom h.of_append.1).isExpression
        (right.readsFrom h.of_append.2.of_cons).isExpression

/-- Written arguments are read as their trees. -/
theorem Sequence.isExpression_each :
  ∀ (sequences : List Sequence),
    (∀ item ∈ Sequence.tokensOfAll sequences, AllKnown funcs item) →
    List.Forall₂ (IsExpression funcs) (Sequence.tokensOfAll sequences) (Sequence.trees sequences)
  | [], _ => .nil
  | sequence :: sequences, h =>
      .cons (sequence.readsFrom (h _ List.mem_cons_self)).isExpression
        (Sequence.isExpression_each sequences fun item hitem =>
          h item (List.mem_cons_of_mem _ hitem))

end

/-! ### Formulas of the grammar -/

open Grammar

/-- Two sequences with an operator between them. -/
def Sequence.append : Sequence → ArithmeticOp → Sequence → Sequence
  | .last operand, op, others => .join operand op others
  | .math op' rest, op, others => .math op' (rest.append op others)
  | .join operand op' rest, op, others => .join operand op' (rest.append op others)

/-- Sequences are put together with an operator between them. -/
theorem Sequence.tokens_append (op : ArithmeticOp) (others : Sequence) :
  ∀ (sequence : Sequence),
    (sequence.append op others).tokens
      = sequence.tokens ++ .binary (.arithmetic op) :: others.tokens
  | .last _ => rfl
  | .math op' rest => by
      rw [append, tokens, tokens, tokens_append op others rest, List.cons_append]
  | .join operand op' rest => by
      rw [append, tokens, tokens, tokens_append op others rest, List.append_assoc,
        List.cons_append]

/-- Sequences that follow each other with operators between them are one sequence. -/
theorem Sequence.exists_flatten (sequence : Sequence) {parts : List (List TokenKind)}
    (h : ∀ part ∈ parts, ∃ op, ∃ other : Sequence,
      part = .binary (.arithmetic op) :: other.tokens) :
  ∃ whole : Sequence, sequence.tokens ++ parts.flatten = whole.tokens
  := by
  induction parts generalizing sequence with
  | nil => exact ⟨sequence, List.append_nil _⟩
  | cons part parts ih =>
    obtain ⟨⟨op, other, rfl⟩, hothers⟩ := List.forall_mem_cons.mp h
    obtain ⟨whole, hwhole⟩ := ih (sequence.append op other) hothers
    use whole
    rw [← hwhole, tokens_append, List.flatten_cons, List.append_assoc]

/-- Sequences with commas before them are the items of a list. -/
theorem Sequence.exists_items {parts : List (List TokenKind)}
    (h : ∀ part ∈ parts, ∃ sequence : Sequence, part = .mark .comma :: sequence.tokens) :
  ∃ sequences, parts.flatten = (Sequence.tokensOfAll sequences).flatMap (.mark .comma :: ·)
  := by
  induction parts with
  | nil => exact ⟨[], rfl⟩
  | cons part parts ih =>
    obtain ⟨⟨sequence, rfl⟩, hothers⟩ := List.forall_mem_cons.mp h
    obtain ⟨sequences, hsequences⟩ := ih hothers
    use sequence :: sequences
    rw [List.flatten_cons, hsequences]
    rfl

/-- The formulas that a nonterminal stands for. -/
def IsFormula : Nonterminal → List TokenKind → Prop
  | .comparison, tokens => ∃ relation : Relation, tokens = relation.tokens
  | .expression, tokens => ∃ sequence : Sequence, tokens = sequence.tokens
  | .term, tokens => ∃ sequence : Sequence, tokens = sequence.tokens
  | .primary, tokens => ∃ sequence : Sequence, tokens = sequence.tokens
  | .value, tokens => ∃ operand : Operand, tokens = operand.tokens
  | .call, tokens =>
    ∃ function bracketed arguments, tokens = (Operand.call function bracketed arguments).tokens
  | .arguments, tokens =>
    ∃ arguments, tokens = Written.listed true (Sequence.tokensOfAll arguments)
  | .input, tokens => ∃ target, tokens = (Operand.input target).tokens
  | _, _ => True

/-- Formulas are closed under the rules of the grammar. -/
theorem isFormula_of_language (nonterminal : Nonterminal) (tokens : List TokenKind)
    (h : (rules nonterminal).Language (fun _ => True) IsFormula tokens) :
  IsFormula nonterminal tokens
  := by
  cases nonterminal with
  | comparison =>
    obtain ⟨_, _, rfl, ⟨left, rfl⟩, hright⟩ := h
    rcases hright with ⟨_, _, rfl, ⟨_, rfl, ⟨⟩, -⟩, right, rfl⟩ | rfl
    · exact ⟨.compared left _ right, rfl⟩
    · exact ⟨.plain left, List.append_nil _⟩
  | expression =>
    obtain ⟨_, _, rfl, ⟨sequence, rfl⟩, parts, rfl, hparts⟩ := h
    apply sequence.exists_flatten
    intro part hpart
    obtain ⟨_, _, rfl, ⟨_, rfl, ⟨hop⟩, -⟩, other, rfl⟩ := hparts part hpart
    exact ⟨_, other, rfl⟩
  | term =>
    obtain ⟨_, _, rfl, ⟨sequence, rfl⟩, parts, rfl, hparts⟩ := h
    apply sequence.exists_flatten
    intro part hpart
    obtain ⟨_, _, rfl, ⟨_, rfl, ⟨hop⟩, -⟩, other, rfl⟩ := hparts part hpart
    exact ⟨_, other, rfl⟩
  | primary =>
    rcases h with ⟨_, _, rfl, ⟨_, rfl, ⟨⟩, -⟩, _, _, rfl, ⟨relation, rfl⟩, _, rfl, ⟨⟩, -⟩ |
      ⟨_, _, rfl, ⟨_, rfl, ⟨⟩, -⟩, rest, rfl⟩ | ⟨target, rfl⟩ | ⟨operand, rfl⟩
    · exact ⟨.last (.parens relation), rfl⟩
    · exact ⟨.math _ rest, rfl⟩
    · exact ⟨.last (.input target), rfl⟩
    · exact ⟨.last operand, rfl⟩
  | value =>
    rcases h with ⟨_, rfl, ⟨⟩, -⟩ | ⟨_, rfl, ⟨⟩, -⟩ | ⟨function, bracketed, arguments, rfl⟩
    · exact ⟨.number _, rfl⟩
    · exact ⟨.variable _, rfl⟩
    · exact ⟨.call function bracketed arguments, rfl⟩
  | call =>
    obtain ⟨_, _, rfl, ⟨_, rfl, ⟨⟩, -⟩, harguments⟩ := h
    rcases harguments with ⟨arguments, rfl⟩ | rfl
    · exact ⟨_, true, arguments, rfl⟩
    · exact ⟨_, false, [], rfl⟩
  | arguments =>
    obtain ⟨_, _, rfl, ⟨_, rfl, ⟨⟩, -⟩, _, _, rfl, hlist, _, rfl, ⟨⟩, -⟩ := h
    rcases hlist with ⟨_, _, rfl, ⟨first, rfl⟩, parts, rfl, hparts⟩ | rfl
    · obtain ⟨others, hothers⟩ : ∃ others,
          parts.flatten = (Sequence.tokensOfAll others).flatMap (.mark .comma :: ·) := by
        apply Sequence.exists_items
        intro part hpart
        obtain ⟨_, _, rfl, ⟨_, rfl, ⟨⟩, -⟩, other, rfl⟩ := hparts part hpart
        exact ⟨other, rfl⟩
      use first :: others
      rw [hothers, List.append_assoc]
      rfl
    · exact ⟨[], rfl⟩
  | input =>
    obtain ⟨_, _, rfl, ⟨_, rfl, ⟨⟩, -⟩, _, rfl, ⟨⟩, -⟩ := h
    exact ⟨_, rfl⟩
  | _ => trivial

/-- The grammar derives an expression exactly if it is a sequence. -/
theorem derives_expression_iff {tokens : List TokenKind} :
  Derives (.ref .expression) tokens ↔ ∃ sequence : Sequence, tokens = sequence.tokens
  := by
  constructor
  · intro h
    exact h.inLanguage isFormula_of_language fun _ _ => trivial
  · rintro ⟨sequence, rfl⟩
    have hknown : AllKnown (functionNames sequence.tokens) sequence.tokens :=
      fun name hname => known_functionNames _ _ hname name rfl
    have hread := (sequence.readsFrom hknown).isExpression.reads (Nat.le_refl _)
      (show Stops extendsExpression [] from trivial)
    obtain ⟨used, hused, hderives⟩ := expression_yields _ hread
    rw [List.append_nil, List.append_nil] at hused
    rwa [hused]

end Formula

open Formula in
/-- The parser reads any sequence of operands as the tree that precedence and associativity give it,
and reads nothing after it, if what follows is neither an arithmetic operator nor arguments.  The
sequences are all expressions that the grammar has. -/
theorem expression_eq_sequence_tree :
  (∀ (sequence : Sequence) (funcs : SymbolTable) (fuel : Nat) (rest : List TokenKind),
      (∀ name, .function name ∈ sequence.tokens → name ∈ funcs.names) →
      Parse.Stops Parse.extendsExpression rest →
      10 * sequence.tokens.length + 3 ≤ fuel →
      Parse.expression funcs fuel (sequence.tokens ++ rest) = .ok (sequence.tree, rest))
    ∧ ∀ tokens, Grammar.Derives (.ref .expression) tokens
      ↔ ∃ sequence : Sequence, tokens = sequence.tokens
  := by
  constructor
  · intro sequence funcs fuel rest hknown hstops hfuel
    apply (sequence.readsFrom hknown).isExpression.reads hfuel hstops
  · intro tokens
    apply derives_expression_iff

open Formula in
/-- The formula `2 * SIN a + b - c`. -/
def sineOfRest : Sequence :=
  .join (.number (.ofNat 2)) .mul
    (.math .sin (.join (.variable "a") .add (.join (.variable "b") .sub (.last (.variable "c")))))

/-- The sine takes all operands that follow it. -/
theorem expression_sineOfRest :
  Parse.expression {} 100 (sineOfRest.tokens ++ [.mark .separator])
    = .ok
      (.arithmetic .mul (.number (.ofNat 2))
        (.math .sin
          (.arithmetic .sub (.arithmetic .add (.variable "a") (.variable "b")) (.variable "c"))),
      [.mark .separator])
  := by
  have hknown : ∀ name, .function name ∈ sineOfRest.tokens → name ∈ ({} : SymbolTable).names := by
    simp [sineOfRest, Formula.Sequence.tokens, Formula.Operand.tokens]
  exact expression_eq_sequence_tree.1 sineOfRest {} 100 [.mark .separator] hknown rfl (by decide)

end StackCompiler
