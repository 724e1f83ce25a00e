import StackCompiler.Proofs.Program.Acceptance
import StackCompiler.Proofs.Program.Written

/-!
# Parsing undoes writing

The parser reads the tokens of a written program as that program.

An operation in parentheses is read as a factor, so the operands of an operation are always factors,
and the loops of the parser end after one turn.  An operation without parentheses stands where a
whole comparison is read.
-/

namespace StackCompiler

namespace Parse

open Written

/-- The parser reads the tokens as the given value and nothing after them, where what follows does
not go on, if it has enough fuel: ten units for each token and the given ones. -/
def ReadsAs {α : Type} (parse : Nat → List TokenKind → Except Mismatch (α × List TokenKind))
    (extra : Nat) (goesOn : TokenKind → Bool) (tokens : List TokenKind) (a : α) : Prop :=
  ∀ fuel rest, 10 * tokens.length ≤ fuel → Stops goesOn rest →
    parse (fuel + extra) (tokens ++ rest) = .ok (a, rest)

namespace ReadsAs

variable {α : Type} {parse : Nat → List TokenKind → Except Mismatch (α × List TokenKind)}
  {extra : Nat} {goesOn : TokenKind → Bool} {tokens : List TokenKind} {a : α}

/-- Tokens are read with any fuel that is enough. -/
theorem reads (h : ReadsAs parse extra goesOn tokens a) {fuel : Nat} {rest : List TokenKind}
    (hfuel : 10 * tokens.length + extra ≤ fuel) (hstops : Stops goesOn rest) :
  parse fuel (tokens ++ rest) = .ok (a, rest)
  := by
  obtain ⟨fuel, rfl⟩ := Nat.exists_eq_add_of_le' (Nat.le_of_add_left_le hfuel)
  apply h fuel rest (Nat.add_le_add_iff_right.mp hfuel) hstops

/-- What is read where some tokens follow is read where fewer tokens may follow. -/
theorem mono {goesOn' : TokenKind → Bool} (h : ReadsAs parse extra goesOn tokens a)
    (hstops : ∀ rest, Stops goesOn' rest → Stops goesOn rest) :
  ReadsAs parse extra goesOn' tokens a
  := by
  intro fuel rest hfuel hrest
  apply h fuel rest hfuel (hstops rest hrest)

end ReadsAs

variable {funcs : SymbolTable}

/-! ### Expressions -/

/-- Tokens that are read as a factor of the given value wherever no arguments follow. -/
def IsFactor (funcs : SymbolTable) : List TokenKind → Expr → Prop :=
  ReadsAs (primary funcs) 1 extendsCall

/-- Tokens that are read as an expression of the given value. -/
def IsExpression (funcs : SymbolTable) : List TokenKind → Expr → Prop :=
  ReadsAs (expression funcs) 3 extendsExpression

/-- Tokens that are read as a comparison of the given value. -/
def IsComparison (funcs : SymbolTable) : List TokenKind → Expr → Prop :=
  ReadsAs (comparison funcs) 4 extendsComparison

section Expressions

variable {tokens tokens' : List TokenKind} {e e' : Expr}

/-- What is read as a factor where no operator follows is an expression. -/
theorem isExpression_of_primary (h : ReadsAs (primary funcs) 1 extendsExpression tokens e) :
  IsExpression funcs tokens e
  := by
  intro fuel rest hfuel hstops
  rw [expression_eq]
  apply bind_eq_ok.mpr ⟨_, h fuel rest hfuel hstops, _⟩
  apply afterOperand_stops (Nat.succ_pos _) (Nat.succ_pos _) hstops

/-- A factor is an expression. -/
theorem IsFactor.isExpression (h : IsFactor funcs tokens e) :
  IsExpression funcs tokens e
  := isExpression_of_primary (h.mono fun _ hstops => hstops.call)

/-- An expression is a comparison. -/
theorem IsExpression.isComparison (h : IsExpression funcs tokens e) :
  IsComparison funcs tokens e
  := by
  intro fuel rest hfuel hstops
  rw [comparison]
  apply bind_eq_ok.mpr ⟨_, h fuel rest hfuel hstops.expression, _⟩
  dsimp only
  split
  · cases hstops
  · rfl

/-- A comparison between parentheses is a factor, and is not changed by them. -/
theorem isFactor_parens (h : IsComparison funcs tokens e) :
  IsFactor funcs (.mark .openParen :: (tokens ++ [.mark .closeParen])) e
  := by
  intro fuel rest hfuel _
  rw [List.length_cons, List.length_append] at hfuel
  have hinner : comparison funcs fuel (tokens ++ .mark .closeParen :: rest)
      = .ok (e, .mark .closeParen :: rest) :=
    h.reads (by omega) rfl
  rw [List.cons_append, List.append_assoc, primary]
  exact bind_eq_ok.mpr ⟨_, hinner, bind_eq_ok.mpr ⟨_, expect_mark _ _, rfl⟩⟩

/-- A math operator takes the expression that follows. -/
theorem isComparison_math (op : MathOp) (h : IsExpression funcs tokens e) :
  IsComparison funcs (.unary (.math op) :: tokens) (.math op e)
  := by
  apply IsExpression.isComparison
  apply isExpression_of_primary
  intro fuel rest hfuel hstops
  rw [List.length_cons] at hfuel
  have hoperand := h.reads (show _ ≤ fuel by omega) hstops
  rw [List.cons_append, primary]
  exact bind_eq_ok.mpr ⟨_, hoperand, rfl⟩

/-- Two factors with an operator between them are read as one operation. -/
theorem isComparison_arithmetic (op : ArithmeticOp) (h : IsFactor funcs tokens e)
    (h' : IsFactor funcs tokens' e') :
  IsComparison funcs (tokens ++ .binary (.arithmetic op) :: tokens') (.arithmetic op e e')
  := by
  apply IsExpression.isComparison
  intro fuel rest hfuel hstops
  rw [List.length_append, List.length_cons] at hfuel
  rw [List.append_assoc, List.cons_append, expression_eq]
  have hleft : primary funcs (fuel + 1) (tokens ++ .binary (.arithmetic op) :: (tokens' ++ rest))
      = .ok (e, .binary (.arithmetic op) :: (tokens' ++ rest)) :=
    h.reads (by omega) rfl
  have hright := h'.reads (show _ ≤ fuel by omega) hstops.call
  apply bind_eq_ok.mpr ⟨_, hleft, _⟩
  dsimp only
  -- One of the two loops takes the operator, and then both find nothing more.
  cases hop : op.isAdditive with
  | false =>
    have hmultiplicative : op.isMultiplicative := by simp [ArithmeticOp.isMultiplicative, hop]
    rw [afterOperand_multiplicative hmultiplicative]
    apply bind_eq_ok.mpr ⟨_, hright, _⟩
    apply afterOperand_stops (by omega) (by omega) hstops
  | true =>
    rw [afterOperand_additive hop]
    apply bind_eq_ok.mpr ⟨_, hright, _⟩
    apply afterOperand_stops (by omega) (by omega) hstops

/-- Expressions on both sides of a comparison operator are compared. -/
theorem isComparison_comparison (op : Comparison) (h : IsExpression funcs tokens e)
    (h' : IsExpression funcs tokens' e') :
  IsComparison funcs (tokens ++ .binary (.comparison op) :: tokens') (.comparison op e e')
  := by
  intro fuel rest hfuel hstops
  rw [List.length_append, List.length_cons] at hfuel
  have hleft : expression funcs (fuel + 3)
      (tokens ++ .binary (.comparison op) :: (tokens' ++ rest))
        = .ok (e, .binary (.comparison op) :: (tokens' ++ rest)) :=
    h.reads (by omega) rfl
  have hright := h'.reads (show _ ≤ fuel + 3 by omega) hstops.expression
  rw [List.append_assoc, List.cons_append, comparison]
  apply bind_eq_ok.mpr ⟨_, hleft, _⟩
  apply bind_eq_ok.mpr ⟨_, hright, _⟩
  dsimp only
  split
  · cases hstops
  · rfl

/-- A call of a known function is a factor. -/
theorem isFactor_call {name : String} {args : List TokenKind} {es : List Expr}
    (hname : name ∈ funcs.names) (h : ReadsAs (arguments funcs) 1 extendsCall args es) :
  IsFactor funcs (.function name :: args) (.call name es)
  := by
  intro fuel rest hfuel hstops
  rw [List.length_cons] at hfuel
  have hargs := h.reads (show _ ≤ fuel by omega) hstops
  rw [List.cons_append, primary]
  apply bind_eq_ok.mpr ⟨_, functionName_known (SymbolTable.isSome_lookup?.mpr hname) _, _⟩
  exact bind_eq_ok.mpr ⟨_, hargs, rfl⟩

end Expressions

/-! ### Arguments -/

/-- Neither a comma nor the end of the arguments goes on with an argument. -/
theorem stops_more (items : List (List TokenKind)) (rest : List TokenKind) :
  Stops extendsExpression
    ((items.flatMap (.mark .comma :: ·) ++ [.mark .argumentsEnd]) ++ rest)
  := by
  cases items <;> rfl

/-- Expressions, each behind a comma, are read as the other arguments. -/
theorem readsAs_moreArguments {items : List (List TokenKind)} {es : List Expr}
    (h : List.Forall₂ (IsExpression funcs) items es) :
  ReadsAs (moreArguments funcs) 1 (fun _ => false)
    (items.flatMap (.mark .comma :: ·) ++ [.mark .argumentsEnd]) es
  := by
  induction h with
  | nil =>
    intro fuel rest _ _
    rfl
  | @cons item e items es hitem hitems ih =>
    intro fuel rest hfuel _
    simp only [List.flatMap_cons, List.cons_append, List.append_assoc, List.length_cons,
      List.length_append, List.length_nil] at hfuel
    have hfirst := hitem.reads (show 10 * item.length + 3 ≤ fuel by omega) (stops_more items rest)
    have hothers := ih.reads (show _ ≤ fuel by
      rw [List.length_append, List.length_singleton]; omega) (stops_never rest)
    rw [List.flatMap_cons, List.cons_append, List.cons_append, List.append_assoc,
      List.cons_append, List.append_assoc, moreArguments]
    apply bind_eq_ok.mpr ⟨_, hfirst, _⟩
    exact bind_eq_ok.mpr ⟨_, hothers, rfl⟩

/-- Arguments in brackets are read, and so are none without brackets. -/
theorem readsAs_arguments (wanted : Bool) {items : List (List TokenKind)} {es : List Expr}
    (h : List.Forall₂ (IsExpression funcs) items es) :
  ReadsAs (arguments funcs) 1 extendsCall (listed wanted items) es
  := by
  cases h with
  | nil =>
    intro fuel rest _ hstops
    cases wanted with
    | true => rfl
    | false =>
      change arguments funcs (fuel + 1) rest = _
      unfold arguments
      split
      · cases hstops
      · cases hstops
      · rfl
  | @cons item e items es hitem hitems =>
    intro fuel rest hfuel _
    simp only [listed, List.length_cons, List.length_append, List.length_nil] at hfuel
    obtain ⟨fuel, rfl⟩ := Nat.exists_eq_add_of_le' (show 2 ≤ fuel by omega)
    have hfirst := hitem.reads (show _ ≤ fuel + 2 by omega) (stops_more items rest)
    have hothers := (readsAs_moreArguments hitems).reads (show _ ≤ fuel + 2 by
      rw [List.length_append, List.length_singleton]; omega) (stops_never rest)
    rw [listed, List.cons_append, List.append_assoc]
    unfold arguments
    split
    · rename_i hend
      rw [(List.cons.inj hend).2] at hfirst
      exact absurd hfirst expression_argumentsEnd_ne_ok
    · rename_i hbegin
      rw [← (List.cons.inj hbegin).2]
      exact bind_eq_ok.mpr ⟨_, hfirst, bind_eq_ok.mpr ⟨_, hothers, rfl⟩⟩
    · rename_i hbegin
      exact absurd rfl (hbegin _)

/-! ### Written expressions -/

/-- All functions among the tokens are in the table. -/
def AllKnown (funcs : SymbolTable) (tokens : List TokenKind) : Prop :=
  ∀ name, .function name ∈ tokens → name ∈ funcs.names

/-- Fewer tokens have fewer names. -/
theorem AllKnown.mono {tokens others : List TokenKind} (h : AllKnown funcs tokens)
    (hsubset : others ⊆ tokens) :
  AllKnown funcs others
  := fun name hname => h name (hsubset hname)

theorem AllKnown.of_cons {token : TokenKind} {tokens : List TokenKind}
    (h : AllKnown funcs (token :: tokens)) :
  AllKnown funcs tokens
  := h.mono (List.subset_cons_self _ _)

/-- The names of both parts are known. -/
theorem AllKnown.of_append {tokens others : List TokenKind}
    (h : AllKnown funcs (tokens ++ others)) :
  AllKnown funcs tokens ∧ AllKnown funcs others
  := ⟨h.mono (List.subset_append_left _ _), h.mono (List.subset_append_right _ _)⟩

/-- Tokens that are read as a comparison of the given value, and as a factor of that value if it is
no operation. -/
def IsWhole (funcs : SymbolTable) (tokens : List TokenKind) (e : Expr) : Prop :=
  IsComparison funcs tokens e ∧ (e.isOperation = false → IsFactor funcs tokens e)

/-- A factor needs no parentheses. -/
theorem IsFactor.isWhole {tokens : List TokenKind} {e : Expr} (h : IsFactor funcs tokens e) :
  IsWhole funcs tokens e
  := ⟨h.isExpression.isComparison, fun _ => h⟩

namespace IsWhole

variable {style : Style} {e : Expr}

/-- An operand is read as a factor, since operations are in parentheses. -/
theorem operand (h : IsWhole funcs (e.tokens style) e) :
  IsFactor funcs (style.operand e) e
  := by
  unfold Style.operand enclosedIf
  split
  · apply isFactor_parens h.1
  · rename_i hnot
    apply h.2
    rw [← Bool.not_eq_true]
    exact mt (style.encloses_of_isOperation e) hnot

/-- A value is read as the expression, whether or not it stands between parentheses. -/
theorem value (h : IsWhole funcs (e.tokens style) e) :
  IsComparison funcs (style.value e) e
  := by
  unfold Style.value enclosedIf
  split
  · apply (isFactor_parens h.1).isExpression.isComparison
  · apply h.1

end IsWhole

mutual

/-- The tokens of an expression are read as that expression. -/
theorem isWhole_tokens (style : Style) :
  ∀ (e : Expr), AllKnown funcs e.leaves → IsWhole funcs (e.tokens style) e
  | .number _, _ => IsFactor.isWhole fun _ _ _ _ => rfl
  | .variable _, _ => IsFactor.isWhole fun _ _ _ _ => rfl
  | .input _, _ => IsFactor.isWhole fun _ _ _ _ => rfl
  | .call function arguments, h => by
      apply IsFactor.isWhole
      apply isFactor_call (h function List.mem_cons_self)
      apply readsAs_arguments
      apply isExpression_operands style arguments h.of_cons
  | .math op operand, h =>
      ⟨isComparison_math op (isWhole_tokens style operand h).operand.isExpression, nofun⟩
  | .arithmetic op left right, h =>
      ⟨isComparison_arithmetic op (isWhole_tokens style left h.of_append.1).operand
        (isWhole_tokens style right h.of_append.2).operand, nofun⟩
  | .comparison op left right, h =>
      ⟨isComparison_comparison op (isWhole_tokens style left h.of_append.1).operand.isExpression
        (isWhole_tokens style right h.of_append.2).operand.isExpression, nofun⟩

/-- Written operands are read as the expressions. -/
theorem isExpression_operands (style : Style) :
  ∀ (es : List Expr), AllKnown funcs (Expr.leavesOfAll es) →
    List.Forall₂ (IsExpression funcs) (Expr.operands style es) es
  | [], _ => .nil
  | e :: es, h =>
      .cons (isWhole_tokens style e h.of_append.1).operand.isExpression
        (isExpression_operands style es h.of_append.2)

end

/-! ### Written statements -/

/-- Tokens that are read as the given statement up to the mark that ends it. -/
def IsStatementOf (funcs : SymbolTable) : List TokenKind → StackCompiler.Statement → Prop :=
  ReadsAs (statement funcs) 1 extendsStatement

/-- Tokens that are read as a body of the given statements, whatever follows. -/
def IsBodyOf (funcs : SymbolTable) : List TokenKind → List StackCompiler.Statement → Prop :=
  ReadsAs (body funcs) 2 fun _ => false

section Statements

variable {parts parts' : List (List TokenKind)} {ss ss' : List StackCompiler.Statement}
  {tokens : List TokenKind} {e : Expr}

/-- Statements with their end marks are read up to the end of the body. -/
theorem readsAs_statements (h : List.Forall₂ (IsStatementOf funcs) parts ss) :
  ReadsAs (statements funcs) 1 (fun _ => false)
    (parts.flatMap (· ++ [.mark .separator]) ++ [.mark .closeBrace]) ss
  := by
  induction h with
  | nil =>
    intro fuel rest _ _
    rfl
  | @cons part s parts ss hpart hparts ih =>
    intro fuel rest hfuel _
    simp only [List.flatMap_cons, List.append_assoc, List.length_append, List.length_singleton]
      at hfuel
    obtain ⟨fuel, rfl⟩ := Nat.exists_eq_add_of_le' (show 1 ≤ fuel by omega)
    have hothers := ih.reads (show _ ≤ fuel + 1 by
      rw [List.length_append, List.length_singleton]; omega) (stops_never rest)
    rw [List.append_assoc] at hothers
    rw [List.flatMap_cons, List.append_assoc, List.append_assoc, List.append_assoc,
      List.singleton_append]
    generalize parts.flatMap (· ++ [.mark .separator]) ++ ([.mark .closeBrace] ++ rest) = others
      at hothers ⊢
    have hfirst : statement funcs (fuel + 1) (part ++ .mark .separator :: others)
        = .ok (s, .mark .separator :: others) :=
      hpart.reads (by omega) rfl
    unfold statements
    split
    · -- no statement begins with the mark that ends a body
      rename_i hend
      rw [hend] at hfirst
      cases hfirst
    · apply bind_eq_ok.mpr ⟨_, hfirst, _⟩
      exact bind_eq_ok.mpr ⟨_, expect_mark _ _, bind_eq_ok.mpr ⟨_, hothers, rfl⟩⟩

/-- Statements between braces are read as a body. -/
theorem isBodyOf_block (h : List.Forall₂ (IsStatementOf funcs) parts ss) :
  IsBodyOf funcs (block parts) ss
  := by
  intro fuel rest hfuel _
  rw [block, List.length_cons] at hfuel
  have hinner := (readsAs_statements h).reads (show _ ≤ fuel + 1 by omega) (stops_never rest)
  rw [block, List.cons_append, body]
  exact bind_eq_ok.mpr ⟨_, expect_mark _ _, hinner⟩

/-- An assignment is read as such. -/
theorem isStatementOf_assign (target : String) (h : IsComparison funcs tokens e) :
  IsStatementOf funcs (.binary .assign :: .variable target :: .mark .assignEnd :: tokens)
    (.assign target e)
  := by
  intro fuel rest hfuel hstops
  simp only [List.length_cons] at hfuel
  have hvalue := h.reads (show _ ≤ fuel by omega) hstops.comparison
  simp only [List.cons_append]
  rw [statement]
  apply bind_eq_ok.mpr ⟨_, rfl, _⟩
  exact bind_eq_ok.mpr ⟨_, expect_mark _ _, bind_eq_ok.mpr ⟨_, hvalue, rfl⟩⟩

/-- A return is read as such. -/
theorem isStatementOf_ret (h : IsComparison funcs tokens e) :
  IsStatementOf funcs (.unary .ret :: tokens) (.ret e)
  := by
  intro fuel rest hfuel hstops
  rw [List.length_cons] at hfuel
  have hvalue := h.reads (show _ ≤ fuel by omega) hstops.comparison
  rw [List.cons_append, statement]
  exact bind_eq_ok.mpr ⟨_, hvalue, rfl⟩

/-- An output is read as such. -/
theorem isStatementOf_output (op : OutputOp) (h : IsExpression funcs tokens e) :
  IsStatementOf funcs (.unary (.output op) :: tokens) (.output op e)
  := by
  intro fuel rest hfuel hstops
  rw [List.length_cons] at hfuel
  have hvalue := h.reads (show _ ≤ fuel by omega) hstops.comparison.expression
  rw [List.cons_append, statement]
  exact bind_eq_ok.mpr ⟨_, hvalue, rfl⟩

/-- A call is read as a statement. -/
theorem isStatementOf_call {name : String} {es : List Expr} (hname : name ∈ funcs.names)
    (h : ReadsAs (arguments funcs) 1 extendsCall tokens es) :
  IsStatementOf funcs (.function name :: tokens) (.call name es)
  := by
  intro fuel rest hfuel hstops
  rw [List.length_cons] at hfuel
  have hargs := h.reads (show _ ≤ fuel by omega) hstops.comparison.expression.call
  rw [List.cons_append, statement]
  apply bind_eq_ok.mpr ⟨_, functionName_known (SymbolTable.isSome_lookup?.mpr hname) _, _⟩
  exact bind_eq_ok.mpr ⟨_, hargs, rfl⟩

/-- A condition and a body are read as a loop. -/
theorem isStatementOf_loop (h : IsFactor funcs tokens e)
    (hbody : IsBodyOf funcs (block parts) ss) :
  IsStatementOf funcs (.control .loop :: (tokens ++ block parts)) (.loop e ss)
  := by
  intro fuel rest hfuel _
  rw [List.length_cons, List.length_append] at hfuel
  have hcondition : primary funcs fuel (tokens ++ (block parts ++ rest))
      = .ok (e, block parts ++ rest) :=
    h.reads (by omega) rfl
  have hrepeated := hbody.reads (show _ ≤ fuel by omega) (stops_never rest)
  rw [List.cons_append, List.append_assoc, statement]
  exact bind_eq_ok.mpr ⟨_, hcondition, bind_eq_ok.mpr ⟨_, hrepeated, rfl⟩⟩

/-- A second body that is not there is read as an empty one. -/
theorem readsAs_noAlternative :
  ReadsAs (alternative funcs) 3 extendsBranch [] []
  := by
  intro fuel rest _ hstops
  rw [List.nil_append]
  unfold alternative
  split
  · cases hstops
  · rfl

/-- A second body is read as such. -/
theorem readsAs_alternative (h : IsBodyOf funcs (block parts) ss) :
  ReadsAs (alternative funcs) 3 extendsBranch (block parts) ss
  := by
  intro fuel rest hfuel _
  apply h fuel rest hfuel (stops_never rest)

/-- A condition, a body and perhaps a second body are read as a branch. -/
theorem isStatementOf_branch {other : List TokenKind} (h : IsFactor funcs tokens e)
    (hbody : IsBodyOf funcs (block parts) ss)
    (hother : ReadsAs (alternative funcs) 3 extendsBranch other ss') :
  IsStatementOf funcs (.control .branch :: (tokens ++ (block parts ++ other))) (.branch e ss ss')
  := by
  intro fuel rest hfuel hstops
  simp only [List.length_cons, List.length_append] at hfuel
  have hcondition : primary funcs fuel (tokens ++ (block parts ++ (other ++ rest)))
      = .ok (e, block parts ++ (other ++ rest)) :=
    h.reads (by omega) rfl
  have hfirst := hbody.reads (show _ ≤ fuel by omega) (stops_never (other ++ rest))
  have hsecond := hother.reads (show _ ≤ fuel by omega) hstops.branch
  rw [List.cons_append, List.append_assoc, List.append_assoc, statement]
  apply bind_eq_ok.mpr ⟨_, hcondition, _⟩
  exact bind_eq_ok.mpr ⟨_, hfirst, bind_eq_ok.mpr ⟨_, hsecond, rfl⟩⟩

end Statements

mutual

/-- The tokens of a statement are read as that statement. -/
theorem isStatementOf_tokens (style : Style) :
  ∀ (s : Written.Statement), AllKnown funcs s.toStatement.leaves →
    IsStatementOf funcs (s.tokens style) s.toStatement
  | .assign target value, h =>
      isStatementOf_assign target (isWhole_tokens style value h.of_cons).value
  | .branch condition consequence, h => by
      obtain ⟨hcondition, harms⟩ := h.of_append
      have hbody := isBodyOf_block (isStatementOf_tokensOfAll style consequence harms.of_append.1)
      have hbranch := isStatementOf_branch (isWhole_tokens style condition hcondition).operand hbody
        readsAs_noAlternative
      rwa [List.append_nil] at hbranch
  | .choice condition consequence alternative, h => by
      obtain ⟨hcondition, harms⟩ := h.of_append
      apply isStatementOf_branch (isWhole_tokens style condition hcondition).operand
      · apply isBodyOf_block
        apply isStatementOf_tokensOfAll style consequence harms.of_append.1
      · apply readsAs_alternative
        apply isBodyOf_block
        apply isStatementOf_tokensOfAll style alternative harms.of_append.2
  | .loop condition body, h => by
      apply isStatementOf_loop (isWhole_tokens style condition h.of_append.1).operand
      apply isBodyOf_block
      apply isStatementOf_tokensOfAll style body h.of_append.2
  | .call function arguments, h => by
      apply isStatementOf_call (h function List.mem_cons_self)
      apply readsAs_arguments
      apply isExpression_operands style arguments h.of_cons
  | .ret value, h => isStatementOf_ret (isWhole_tokens style value h).value
  | .output op value, h =>
      isStatementOf_output op (isWhole_tokens style value h).operand.isExpression
  | .input _, _ => fun _ _ _ _ => rfl

/-- Written statements are read as the statements. -/
theorem isStatementOf_tokensOfAll (style : Style) :
  ∀ (ss : List Written.Statement),
    AllKnown funcs (StackCompiler.Statement.leavesOfAll (Statement.toStatements ss)) →
    List.Forall₂ (IsStatementOf funcs) (Statement.tokensOfAll style ss)
      (Statement.toStatements ss)
  | [], _ => .nil
  | s :: ss, h =>
      .cons (isStatementOf_tokens style s h.of_append.1)
        (isStatementOf_tokensOfAll style ss h.of_append.2)

end

/-! ### Written functions -/

/-- Variables, each behind a comma, are read as the other parameters. -/
theorem moreParameters_listed (names : List String) (rest : List TokenKind) :
  moreParameters
      ((names.map fun name => [.variable name]).flatMap (.mark .comma :: ·)
        ++ (.mark .argumentsEnd :: rest))
    = .ok (names, rest)
  := by
  induction names with
  | nil => rfl
  | cons name names ih =>
    rw [List.map_cons, List.flatMap_cons, List.append_assoc]
    exact bind_eq_ok.mpr ⟨_, ih, rfl⟩

/-- Parameters in brackets are read, and so are none without brackets. -/
theorem parameters_listed (wanted : Bool) (names : List String) {rest : List TokenKind}
    (hstops : Stops extendsCall rest) :
  parameters (listed wanted (names.map fun name => [.variable name]) ++ rest) = .ok (names, rest)
  := by
  cases names with
  | nil =>
    cases wanted with
    | true => rfl
    | false =>
      change parameters rest = _
      unfold parameters
      split
      · cases hstops
      · cases hstops
      · rfl
  | cons name names =>
    rw [List.map_cons, listed, List.cons_append, List.append_assoc, List.append_assoc]
    apply bind_eq_ok.mpr ⟨_, rfl, _⟩
    exact bind_eq_ok.mpr ⟨_, moreParameters_listed names rest, rfl⟩

/-- The tokens of a function are read as that function. -/
theorem readsAs_definition (style : Style) {d : Written.Definition} (hname : d.name ∈ funcs.names)
    (h : AllKnown funcs d.leaves) :
  ReadsAs (definition funcs) 2 (fun _ => false) (d.tokens style) d.toDefinition
  := by
  intro fuel rest hfuel _
  simp only [Definition.tokens, List.length_cons, List.length_append] at hfuel
  have hbody : body funcs (fuel + 2) (block (Statement.tokensOfAll style d.body) ++ rest)
      = .ok (Statement.toStatements d.body, rest) := by
    apply (isBodyOf_block _).reads (by omega) (stops_never rest)
    apply isStatementOf_tokensOfAll style d.body
    apply h.mono (List.subset_append_right _ _)
  have hparameters := parameters_listed (style.brackets d.name) d.parameters
    (show Stops extendsCall (block (Statement.tokensOfAll style d.body) ++ rest) from rfl)
  rw [Definition.tokens, List.cons_append, List.cons_append, List.append_assoc]
  apply bind_eq_ok.mpr ⟨_, expect_mark _ _, _⟩
  apply bind_eq_ok.mpr ⟨_, functionName_known (SymbolTable.isSome_lookup?.mpr hname) _, _⟩
  exact bind_eq_ok.mpr ⟨_, hparameters, bind_eq_ok.mpr ⟨_, hbody, rfl⟩⟩

/-- Written functions are read as the functions. -/
theorem definitions_tokens (style : Style) {ds : List Written.Definition}
    (hnames : ∀ d ∈ ds, d.name ∈ funcs.names) (h : ∀ d ∈ ds, AllKnown funcs d.leaves) :
  ∀ {fuel : Nat}, 10 * (ds.flatMap (·.tokens style)).length + 3 ≤ fuel →
    definitions funcs fuel (ds.flatMap (·.tokens style)) = .ok (ds.map (·.toDefinition), [])
  := by
  induction ds with
  | nil =>
    intro fuel hfuel
    obtain ⟨fuel, rfl⟩ := Nat.exists_eq_add_of_le' (show 1 ≤ fuel by omega)
    rfl
  | cons d ds ih =>
    intro fuel hfuel
    obtain ⟨hname, hnames⟩ := List.forall_mem_cons.mp hnames
    obtain ⟨hd, hds⟩ := List.forall_mem_cons.mp h
    rw [List.flatMap_cons, List.length_append] at hfuel
    have hpositive : 0 < (d.tokens style).length := Nat.succ_pos _
    obtain ⟨fuel, rfl⟩ := Nat.exists_eq_add_of_le' (show 1 ≤ fuel by omega)
    have hfirst := (readsAs_definition style hname hd).reads (show _ ≤ fuel by omega)
      (stops_never (ds.flatMap (·.tokens style)))
    have hothers := ih hnames hds (show _ ≤ fuel by omega)
    rw [List.flatMap_cons]
    exact bind_eq_ok.mpr ⟨_, hfirst, bind_eq_ok.mpr ⟨_, hothers, rfl⟩⟩

/-- The tokens of functions are read as a program of these functions. -/
theorem program_tokens (style : Style) {first : Written.Definition}
    {others : List Written.Definition} (hnames : ∀ d ∈ first :: others, d.name ∈ funcs.names)
    (h : ∀ d ∈ first :: others, AllKnown funcs d.leaves) :
  program funcs ((first :: others).flatMap (·.tokens style))
    = .ok { first := first.toDefinition, others := others.map (·.toDefinition) }
  := by
  obtain ⟨hname, hnames⟩ := List.forall_mem_cons.mp hnames
  obtain ⟨hfirst, hothers⟩ := List.forall_mem_cons.mp h
  rw [List.flatMap_cons]
  have hfuel : fuel (first.tokens style ++ others.flatMap (·.tokens style))
      = 10 * (first.tokens style).length + 10 * (others.flatMap (·.tokens style)).length + 10 := by
    rw [fuel, List.length_append]
    omega
  have hread := (readsAs_definition style hname hfirst).reads
    (show _ ≤ fuel (first.tokens style ++ others.flatMap (·.tokens style)) by omega)
    (stops_never (others.flatMap (·.tokens style)))
  have hrest := definitions_tokens style hnames hothers
    (show _ ≤ fuel (first.tokens style ++ others.flatMap (·.tokens style)) by omega)
  exact bind_eq_ok.mpr ⟨_, hread, bind_eq_ok.mpr ⟨_, hrest, rfl⟩⟩

end Parse

end StackCompiler
