import StackCompiler.Proofs.Program.Derivation

/-!
# Acceptance

Whatever is derived from the grammar is read by the parser.

The grammar is ambiguous.  A math operator stands where a factor may stand and takes a whole
expression for its operand, so an arithmetic operator after it may belong to the operand or to what
stands around it.  The parser always gives it to the operand.  This never leads astray, because the
token lists of terms and of expressions can be told without saying how they are grouped: they are
operands with arithmetic operators between them (`Operands`), and every tail of such a list that
begins at an operand is such a list again.
-/

namespace StackCompiler

namespace Parse

open Grammar

/-! ### Tokens that go on -/

/-- Whether the token belongs to a call when it follows the name of the function. -/
def extendsCall : TokenKind → Bool
  | .mark .argumentsBegin => true
  | _ => false

/-- Whether the token belongs to an expression when it follows one. -/
def extendsExpression : TokenKind → Bool
  | .binary (.arithmetic _) => true
  | kind => extendsCall kind

/-- Whether the token belongs to a comparison when it follows one, or is a comparison too many. -/
def extendsComparison : TokenKind → Bool
  | .binary (.comparison _) => true
  | kind => extendsExpression kind

/-- Whether the token belongs to a branch when it follows the first body. -/
def extendsBranch (kind : TokenKind) : Bool :=
  kind == .mark .openBrace

/-- Whether the token is not the mark that ends a statement. -/
def extendsStatement (kind : TokenKind) : Bool :=
  kind != .mark .separator

/-- The first token, if there is one, does not go on with what was read. -/
def Stops (goesOn : TokenKind → Bool) : List TokenKind → Prop
  | [] => True
  | kind :: _ => goesOn kind = false

/-- If nothing goes on, then every token stops. -/
theorem stops_never (rest : List TokenKind) :
  Stops (fun _ => false) rest
  := by
  cases rest <;> trivial

namespace Stops

variable {goesOn goesOn' : TokenKind → Bool} {rest : List TokenKind}

/-- What stops something stops whatever goes on with fewer tokens. -/
theorem mono (h : Stops goesOn rest)
    (hmono : ∀ kind, goesOn kind = false → goesOn' kind = false) :
  Stops goesOn' rest
  := by
  cases rest with
  | nil => trivial
  | cons kind rest => apply hmono kind h

/-- The end of a statement stops a comparison. -/
theorem comparison (h : Stops extendsStatement rest) :
  Stops extendsComparison rest
  := by
  apply h.mono
  intro kind hkind
  obtain rfl : kind = .mark .separator := by simpa [extendsStatement] using hkind
  rfl

/-- The end of a statement stops a branch after its first body. -/
theorem branch (h : Stops extendsStatement rest) :
  Stops extendsBranch rest
  := by
  apply h.mono
  intro kind hkind
  obtain rfl : kind = .mark .separator := by simpa [extendsStatement] using hkind
  rfl

/-- What stops a comparison stops an expression. -/
theorem expression (h : Stops extendsComparison rest) :
  Stops extendsExpression rest
  := by
  apply h.mono
  intro kind hkind
  unfold extendsComparison at hkind
  split at hkind
  · cases hkind
  · exact hkind

/-- What stops an expression stops a call. -/
theorem call (h : Stops extendsExpression rest) :
  Stops extendsCall rest
  := by
  apply h.mono
  intro kind hkind
  unfold extendsExpression at hkind
  split at hkind
  · cases hkind
  · exact hkind

end Stops

/-- The parser reads the tokens and nothing after them, where what follows does not go on, if it has
enough fuel: ten units for each token and the given ones. -/
def Accepts {α : Type} (parse : Nat → List TokenKind → Except Mismatch (α × List TokenKind))
    (extra : Nat) (goesOn : TokenKind → Bool) (tokens : List TokenKind) : Prop :=
  ∀ fuel rest, 10 * tokens.length ≤ fuel → Stops goesOn rest →
    ∃ a, parse (fuel + extra) (tokens ++ rest) = .ok (a, rest)

/-- Accepted tokens are read with any fuel that is enough. -/
theorem Accepts.reads {α : Type}
    {parse : Nat → List TokenKind → Except Mismatch (α × List TokenKind)} {extra : Nat}
    {goesOn : TokenKind → Bool} {tokens : List TokenKind}
    (h : Accepts parse extra goesOn tokens) {fuel : Nat} {rest : List TokenKind}
    (hfuel : 10 * tokens.length + extra ≤ fuel) (hstops : Stops goesOn rest) :
  ∃ a, parse fuel (tokens ++ rest) = .ok (a, rest)
  := by
  obtain ⟨fuel, rfl⟩ := Nat.exists_eq_add_of_le' (Nat.le_of_add_left_le hfuel)
  exact h fuel rest (Nat.add_le_add_iff_right.mp hfuel) hstops

/-- A mark that is expected is read. -/
theorem expect_mark (mark : Mark) (rest : List TokenKind) :
  expect mark (.mark mark :: rest) = .ok ((), rest)
  := by
  rw [expect, if_pos rfl]

/-- The name of a function of the table is read. -/
theorem functionName_known {funcs : SymbolTable} {name : String}
    (h : (funcs.lookup? name).isSome) (rest : List TokenKind) :
  functionName funcs (.function name :: rest) = .ok (name, rest)
  := by
  rw [functionName, if_pos h]

variable {funcs : SymbolTable}

/-! ### Operands -/

/-- What follows an operand: the other factors of its term, and then the other terms.  The term
becomes a part of what was read before by `sum`. -/
def afterOperand (funcs : SymbolTable) (inner outer : Nat) (sum : Expr → Expr) (left : Expr)
    (tokens : List TokenKind) : Except Mismatch (Expr × List TokenKind) := do
  let (left, rest) ← moreFactors funcs inner left tokens
  moreTerms funcs outer (sum left) rest

/-- An operand, which becomes a part of its term by `product`, and what follows it. -/
def fromOperand (funcs : SymbolTable) (fuel inner outer : Nat) (sum product : Expr → Expr)
    (tokens : List TokenKind) : Except Mismatch (Expr × List TokenKind) := do
  let (operand, rest) ← primary funcs fuel tokens
  afterOperand funcs inner outer sum (product operand) rest

/-- An expression is an operand and what follows it. -/
theorem expression_eq (fuel : Nat) (tokens : List TokenKind) :
  expression funcs (fuel + 2) tokens = fromOperand funcs fuel fuel (fuel + 1) id id tokens
  := by
  rw [expression, term, bind_assoc]
  rfl

/-- If the next token does not go on with an expression, then nothing follows the operand. -/
theorem afterOperand_stops {inner outer : Nat} {sum : Expr → Expr} {left : Expr}
    {rest : List TokenKind} (hinner : 0 < inner) (houter : 0 < outer)
    (h : Stops extendsExpression rest) :
  afterOperand funcs inner outer sum left rest = .ok (sum left, rest)
  := by
  obtain ⟨inner, rfl⟩ := Nat.exists_eq_add_of_le' hinner
  obtain ⟨outer, rfl⟩ := Nat.exists_eq_add_of_le' houter
  have hnot : ∀ op others, rest ≠ .binary (.arithmetic op) :: others := by
    rintro op others rfl
    cases h
  apply bind_eq_ok.mpr
  use (left, rest)
  constructor
  · unfold moreFactors
    split
    · exact absurd rfl (hnot _ _)
    · rfl
  · dsimp only
    unfold moreTerms
    split
    · exact absurd rfl (hnot _ _)
    · rfl

/-- A multiplicative operator after an operand is read by the loop for factors, and the next operand
becomes a part of the same term. -/
theorem afterOperand_multiplicative {inner outer : Nat} {sum : Expr → Expr} {left : Expr}
    {op : ArithmeticOp} (h : op.isMultiplicative) (tokens : List TokenKind) :
  afterOperand funcs (inner + 1) outer sum left (.binary (.arithmetic op) :: tokens)
    = fromOperand funcs inner inner outer sum (.arithmetic op left) tokens
  := by
  rw [afterOperand, moreFactors, if_pos h, bind_assoc]
  rfl

/-- An additive operator after an operand is left by the loop for factors and read by the loop for
terms, and the next operand begins another term. -/
theorem afterOperand_additive {inner outer : Nat} {sum : Expr → Expr} {left : Expr}
    {op : ArithmeticOp} (h : op.isAdditive) (tokens : List TokenKind) :
  afterOperand funcs (inner + 1) (outer + 2) sum left (.binary (.arithmetic op) :: tokens)
    = fromOperand funcs outer outer (outer + 1) (.arithmetic op (sum left)) id tokens
  := by
  have hnot : ¬ op.isMultiplicative := by
    simp [ArithmeticOp.isMultiplicative, h]
  calc afterOperand funcs (inner + 1) (outer + 2) sum left (.binary (.arithmetic op) :: tokens)
    _ = moreTerms funcs (outer + 2) (sum left) (.binary (.arithmetic op) :: tokens) := by
      rw [afterOperand, moreFactors, if_neg hnot]
      rfl
    _ = fromOperand funcs outer outer (outer + 1) (.arithmetic op (sum left)) id tokens := by
      rw [moreTerms, if_pos h, term, bind_assoc]
      rfl

/-- Token lists that are read as one operand wherever no arguments follow. -/
def IsOperand (funcs : SymbolTable) : List TokenKind → Prop :=
  Accepts (primary funcs) 1 extendsCall

/-- Operands with arithmetic operators between them, each of which may have math operators before
it. -/
inductive Operands (funcs : SymbolTable) : List TokenKind → Prop where
  | single {tokens : List TokenKind} (h : IsOperand funcs tokens) : Operands funcs tokens
  | math {tokens : List TokenKind} (op : MathOp) (h : Operands funcs tokens) :
      Operands funcs (.unary (.math op) :: tokens)
  | join {tokens tokens' : List TokenKind} (h : IsOperand funcs tokens) (op : ArithmeticOp)
      (h' : Operands funcs tokens') :
      Operands funcs (tokens ++ .binary (.arithmetic op) :: tokens')

namespace Operands

/-- Operands, an operator and more operands are operands with operators between them. -/
theorem append {tokens tokens' : List TokenKind} (h : Operands funcs tokens) (op : ArithmeticOp)
    (h' : Operands funcs tokens') :
  Operands funcs (tokens ++ .binary (.arithmetic op) :: tokens')
  := by
  induction h with
  | single h => exact .join h op h'
  | math op' h ih => exact .math op' ih
  | join h op' h'' ih =>
    rw [List.append_assoc, List.cons_append]
    exact .join h op' ih

/-- Operands that follow each other with operators between them. -/
theorem flatten {tokens : List TokenKind} (h : Operands funcs tokens)
    {parts : List (List TokenKind)}
    (hparts : ∀ part ∈ parts,
      ∃ op tokens', part = .binary (.arithmetic op) :: tokens' ∧ Operands funcs tokens') :
  Operands funcs (tokens ++ parts.flatten)
  := by
  induction parts generalizing tokens with
  | nil => simpa using h
  | cons part parts ih =>
    obtain ⟨⟨op, tokens', rfl, h'⟩, hothers⟩ := List.forall_mem_cons.mp hparts
    rw [List.flatten_cons, ← List.append_assoc]
    apply ih (h.append op h') hothers

/-- Wherever an operand may begin, all operands are read. -/
theorem fromOperand_ok {tokens : List TokenKind} (h : Operands funcs tokens) :
  ∀ (fuel inner outer : Nat) (sum product : Expr → Expr) {rest : List TokenKind},
    10 * tokens.length < fuel → 10 * tokens.length < inner → 10 * tokens.length < outer →
    Stops extendsExpression rest →
    ∃ e, fromOperand funcs fuel inner outer sum product (tokens ++ rest) = .ok (e, rest)
  := by
  induction h with
  | single h =>
    intro fuel inner outer sum product rest hfuel hinner houter hstops
    obtain ⟨e, he⟩ := h.reads hfuel hstops.call
    use sum (product e)
    exact bind_eq_ok.mpr ⟨_, he, afterOperand_stops (by omega) (by omega) hstops⟩
  | @math tokens op h ih =>
    intro fuel inner outer sum product rest hfuel hinner houter hstops
    rw [List.length_cons] at hfuel
    -- the operator takes all operands that follow, and leaves nothing to the loops around it
    obtain ⟨fuel, rfl⟩ := Nat.exists_eq_add_of_le' (show 3 ≤ fuel by omega)
    obtain ⟨e, he⟩ := ih fuel fuel (fuel + 1) id id (by omega) (by omega) (by omega) hstops
    rw [← expression_eq] at he
    have hprimary : primary funcs (fuel + 3) (.unary (.math op) :: (tokens ++ rest))
        = .ok (.math op e, rest) := by
      rw [primary]
      exact bind_eq_ok.mpr ⟨_, he, rfl⟩
    use sum (product (.math op e))
    exact bind_eq_ok.mpr
      ⟨_, hprimary, afterOperand_stops (Nat.zero_lt_of_lt hinner) (Nat.zero_lt_of_lt houter) hstops⟩
  | @join tokens tokens' h op h' ih =>
    intro fuel inner outer sum product rest hfuel hinner houter hstops
    rw [List.length_append, List.length_cons] at hfuel hinner houter
    rw [List.append_assoc, List.cons_append]
    obtain ⟨left, hleft⟩ : ∃ e, primary funcs fuel
        (tokens ++ .binary (.arithmetic op) :: (tokens' ++ rest))
          = .ok (e, .binary (.arithmetic op) :: (tokens' ++ rest)) :=
      h.reads (by omega) rfl
    obtain ⟨inner, rfl⟩ := Nat.exists_eq_add_of_le' (show 1 ≤ inner by omega)
    obtain ⟨outer, rfl⟩ := Nat.exists_eq_add_of_le' (show 2 ≤ outer by omega)
    -- whichever loop takes the operator, the next operand is read, and then both loops go on
    cases hop : op.isAdditive with
    | false =>
      have hmultiplicative : op.isMultiplicative := by simp [ArithmeticOp.isMultiplicative, hop]
      obtain ⟨e, he⟩ := ih inner inner (outer + 2) sum (.arithmetic op (product left)) (by omega)
        (by omega) (by omega) hstops
      use e
      rw [← afterOperand_multiplicative hmultiplicative] at he
      exact bind_eq_ok.mpr ⟨_, hleft, he⟩
    | true =>
      obtain ⟨e, he⟩ := ih outer outer (outer + 1) (.arithmetic op (sum (product left))) id
        (by omega) (by omega) (by omega) hstops
      use e
      rw [← afterOperand_additive hop] at he
      exact bind_eq_ok.mpr ⟨_, hleft, he⟩

/-- Operands are read as one expression. -/
theorem accepts {tokens : List TokenKind} (h : Operands funcs tokens) :
  Accepts (expression funcs) 3 extendsExpression tokens
  := by
  intro fuel rest hfuel hstops
  rw [expression_eq]
  apply h.fromOperand_ok _ _ _ _ _ (by omega) (by omega) (by omega) hstops

end Operands

/-- A number is an operand. -/
theorem isOperand_number (value : Binary64) :
  IsOperand funcs [.number value]
  := by
  intro fuel rest _ _
  use .number value
  rfl

/-- A variable is an operand. -/
theorem isOperand_variable (name : String) :
  IsOperand funcs [.variable name]
  := by
  intro fuel rest _ _
  use .variable name
  rfl

/-- The input of a variable is an operand. -/
theorem isOperand_input (target : String) :
  IsOperand funcs [.unary .input, .variable target]
  := by
  intro fuel rest _ _
  use .input target
  rfl

/-- A call of a known function is an operand. -/
theorem isOperand_call {name : String} {args : List TokenKind}
    (hname : (funcs.lookup? name).isSome) (h : Accepts (arguments funcs) 1 extendsCall args) :
  IsOperand funcs (.function name :: args)
  := by
  intro fuel rest hfuel hstops
  rw [List.length_cons] at hfuel
  obtain ⟨es, hes⟩ := h.reads (show _ ≤ fuel by omega) hstops
  use .call name es
  rw [List.cons_append, primary]
  exact bind_eq_ok.mpr ⟨_, functionName_known hname _, bind_eq_ok.mpr ⟨_, hes, rfl⟩⟩

/-- A comparison between parentheses is an operand. -/
theorem isOperand_parens {tokens : List TokenKind}
    (h : Accepts (comparison funcs) 4 extendsComparison tokens) :
  IsOperand funcs (.mark .openParen :: (tokens ++ [.mark .closeParen]))
  := by
  intro fuel rest hfuel _
  rw [List.length_cons, List.length_append] at hfuel
  obtain ⟨e, he⟩ : ∃ e, comparison funcs fuel (tokens ++ .mark .closeParen :: rest)
      = .ok (e, .mark .closeParen :: rest) :=
    h.reads (by omega) rfl
  use e
  rw [List.cons_append, List.append_assoc, primary]
  exact bind_eq_ok.mpr ⟨_, he, bind_eq_ok.mpr ⟨_, expect_mark _ _, rfl⟩⟩

/-- A math operator before operands stands where an operand may stand, too, but only where no
arithmetic operator follows. -/
theorem accepts_math {tokens : List TokenKind} (op : MathOp) (h : Operands funcs tokens) :
  Accepts (primary funcs) 1 extendsExpression (.unary (.math op) :: tokens)
  := by
  intro fuel rest hfuel hstops
  rw [List.length_cons] at hfuel
  obtain ⟨e, he⟩ := h.accepts.reads (show _ ≤ fuel by omega) hstops
  use .math op e
  rw [List.cons_append, primary]
  exact bind_eq_ok.mpr ⟨_, he, rfl⟩

/-! ### Comparisons -/

/-- Operands alone are read as a comparison. -/
theorem accepts_expression {tokens : List TokenKind} (h : Operands funcs tokens) :
  Accepts (comparison funcs) 4 extendsComparison tokens
  := by
  intro fuel rest hfuel hstops
  obtain ⟨e, he⟩ := h.accepts fuel rest hfuel hstops.expression
  use e
  rw [comparison]
  apply bind_eq_ok.mpr ⟨_, he, _⟩
  dsimp only
  split
  · cases hstops
  · rfl

/-- Operands on both sides of a comparison operator are read as a comparison. -/
theorem accepts_comparison {tokens tokens' : List TokenKind} (h : Operands funcs tokens)
    (op : Comparison) (h' : Operands funcs tokens') :
  Accepts (comparison funcs) 4 extendsComparison (tokens ++ .binary (.comparison op) :: tokens')
  := by
  intro fuel rest hfuel hstops
  rw [List.length_append, List.length_cons] at hfuel
  obtain ⟨left, hleft⟩ : ∃ e, expression funcs (fuel + 3)
      (tokens ++ .binary (.comparison op) :: (tokens' ++ rest))
        = .ok (e, .binary (.comparison op) :: (tokens' ++ rest)) :=
    h.accepts.reads (by omega) rfl
  obtain ⟨right, hright⟩ := h'.accepts.reads (show _ ≤ fuel + 3 by omega) hstops.expression
  use .comparison op left right
  rw [List.append_assoc, List.cons_append, comparison]
  apply bind_eq_ok.mpr ⟨_, hleft, _⟩
  apply bind_eq_ok.mpr ⟨_, hright, _⟩
  dsimp only
  split
  · cases hstops
  · rfl

/-! ### Arguments -/

/-- No expression begins with the mark that ends arguments. -/
theorem expression_argumentsEnd_ne_ok {fuel : Nat} {tokens : List TokenKind}
    {result : Expr × List TokenKind} :
  expression funcs (fuel + 2) (.mark .argumentsEnd :: tokens) ≠ .ok result
  := by
  intro h
  rw [expression_eq] at h
  obtain ⟨operand, h, -⟩ := bind_eq_ok.mp h
  cases fuel with
  | zero => cases h
  | succ fuel => cases h

/-- Neither a comma nor the end of the arguments goes on with an argument. -/
theorem stops_listed {parts : List (List TokenKind)}
    (h : ∀ part ∈ parts, ∃ tokens, part = .mark .comma :: tokens ∧ Operands funcs tokens)
    (rest : List TokenKind) :
  Stops extendsExpression (parts.flatten ++ .mark .argumentsEnd :: rest)
  := by
  cases parts with
  | nil => rfl
  | cons part parts =>
    obtain ⟨tokens, rfl, -⟩ := h part List.mem_cons_self
    rfl

/-- Operands, each behind a comma, are read as arguments up to the mark that ends them. -/
theorem moreArguments_ok {parts : List (List TokenKind)}
    (h : ∀ part ∈ parts, ∃ tokens, part = .mark .comma :: tokens ∧ Operands funcs tokens) :
  ∀ {fuel : Nat} {rest : List TokenKind}, 10 * parts.flatten.length < fuel →
    ∃ es, moreArguments funcs fuel (parts.flatten ++ .mark .argumentsEnd :: rest)
      = .ok (es, rest)
  := by
  induction parts with
  | nil =>
    intro fuel rest hfuel
    obtain ⟨fuel, rfl⟩ := Nat.exists_eq_add_of_le' hfuel
    use []
    rfl
  | cons part parts ih =>
    intro fuel rest hfuel
    obtain ⟨⟨tokens, rfl, htokens⟩, hothers⟩ := List.forall_mem_cons.mp h
    simp only [List.flatten_cons, List.cons_append, List.length_cons, List.length_append] at hfuel
    obtain ⟨fuel, rfl⟩ := Nat.exists_eq_add_of_le' (show 1 ≤ fuel by omega)
    obtain ⟨e, he⟩ :=
      htokens.accepts.reads (show _ ≤ fuel by omega) (stops_listed hothers rest)
    obtain ⟨es, hes⟩ := ih hothers (show _ < fuel by omega)
    use e :: es
    rw [List.flatten_cons, List.cons_append, List.cons_append, List.append_assoc, moreArguments]
    exact bind_eq_ok.mpr ⟨_, he, bind_eq_ok.mpr ⟨_, hes, rfl⟩⟩

/-- A call may go without arguments and their marks. -/
theorem accepts_noArguments :
  Accepts (arguments funcs) 1 extendsCall []
  := by
  intro fuel rest _ hstops
  use []
  rw [List.nil_append]
  unfold arguments
  split
  · cases hstops
  · cases hstops
  · rfl

/-- There may be nothing between the marks of arguments. -/
theorem accepts_emptyArguments :
  Accepts (arguments funcs) 1 extendsCall [.mark .argumentsBegin, .mark .argumentsEnd]
  := by
  intro fuel rest _ _
  use []
  rfl

/-- Operands with commas between them are read as arguments between their marks. -/
theorem accepts_arguments {tokens : List TokenKind} (h : Operands funcs tokens)
    {parts : List (List TokenKind)}
    (hparts : ∀ part ∈ parts, ∃ tokens', part = .mark .comma :: tokens' ∧ Operands funcs tokens') :
  Accepts (arguments funcs) 1 extendsCall
    (.mark .argumentsBegin :: ((tokens ++ parts.flatten) ++ [.mark .argumentsEnd]))
  := by
  intro fuel rest hfuel _
  simp only [List.length_cons, List.length_append] at hfuel
  obtain ⟨fuel, rfl⟩ := Nat.exists_eq_add_of_le' (show 2 ≤ fuel by omega)
  obtain ⟨e, he⟩ := h.accepts.reads (show _ ≤ fuel + 2 by omega) (stops_listed hparts rest)
  obtain ⟨es, hes⟩ := moreArguments_ok hparts (show _ < fuel + 2 by omega)
  use e :: es
  rw [List.cons_append, List.append_assoc, List.append_assoc, List.singleton_append]
  unfold arguments
  split
  · rename_i hend
    rw [(List.cons.inj hend).2] at he
    exact absurd he expression_argumentsEnd_ne_ok
  · rename_i hbegin
    rw [← (List.cons.inj hbegin).2]
    exact bind_eq_ok.mpr ⟨_, he, bind_eq_ok.mpr ⟨_, hes, rfl⟩⟩
  · rename_i hbegin
    exact absurd rfl (hbegin _)

/-! ### Statements -/

/-- Token lists that are read as a body, whatever follows. -/
def IsBody (funcs : SymbolTable) (tokens : List TokenKind) : Prop :=
  (∃ inner, tokens = .mark .openBrace :: inner) ∧ Accepts (body funcs) 2 (fun _ => false) tokens

/-- Token lists that are read as a statement up to the mark that ends it. -/
def IsStatement (funcs : SymbolTable) : List TokenKind → Prop :=
  Accepts (statement funcs) 1 extendsStatement

/-- An assignment of a comparison to a variable is a statement. -/
theorem isStatement_assign {value : List TokenKind} (target : String)
    (h : Accepts (comparison funcs) 4 extendsComparison value) :
  IsStatement funcs (.binary .assign :: .variable target :: .mark .assignEnd :: value)
  := by
  intro fuel rest hfuel hstops
  simp only [List.length_cons] at hfuel
  obtain ⟨e, he⟩ := h.reads (show _ ≤ fuel by omega) hstops.comparison
  use .assign target e
  simp only [List.cons_append]
  rw [statement]
  apply bind_eq_ok.mpr ⟨_, rfl, _⟩
  exact bind_eq_ok.mpr ⟨_, expect_mark _ _, bind_eq_ok.mpr ⟨_, he, rfl⟩⟩

/-- The return of a comparison is a statement. -/
theorem isStatement_ret {value : List TokenKind}
    (h : Accepts (comparison funcs) 4 extendsComparison value) :
  IsStatement funcs (.unary .ret :: value)
  := by
  intro fuel rest hfuel hstops
  rw [List.length_cons] at hfuel
  obtain ⟨e, he⟩ := h.reads (show _ ≤ fuel by omega) hstops.comparison
  use .ret e
  rw [List.cons_append, statement]
  exact bind_eq_ok.mpr ⟨_, he, rfl⟩

/-- The output of operands is a statement. -/
theorem isStatement_output {value : List TokenKind} (op : OutputOp) (h : Operands funcs value) :
  IsStatement funcs (.unary (.output op) :: value)
  := by
  intro fuel rest hfuel hstops
  rw [List.length_cons] at hfuel
  obtain ⟨e, he⟩ := h.accepts.reads (show _ ≤ fuel by omega) hstops.comparison.expression
  use .output op e
  rw [List.cons_append, statement]
  exact bind_eq_ok.mpr ⟨_, he, rfl⟩

/-- The input of a variable is a statement. -/
theorem isStatement_input (target : String) :
  IsStatement funcs [.unary .input, .variable target]
  := by
  intro fuel rest _ _
  use .input target
  rfl

/-- A call of a known function is a statement. -/
theorem isStatement_call {name : String} {args : List TokenKind}
    (hname : (funcs.lookup? name).isSome) (h : Accepts (arguments funcs) 1 extendsCall args) :
  IsStatement funcs (.function name :: args)
  := by
  intro fuel rest hfuel hstops
  rw [List.length_cons] at hfuel
  obtain ⟨es, hes⟩ := h.reads (show _ ≤ fuel by omega) hstops.comparison.expression.call
  use .call name es
  rw [List.cons_append, statement]
  exact bind_eq_ok.mpr ⟨_, functionName_known hname _, bind_eq_ok.mpr ⟨_, hes, rfl⟩⟩

/-- The mark that begins a body stops an expression. -/
theorem IsBody.stops {tokens : List TokenKind} (h : IsBody funcs tokens) (rest : List TokenKind) :
  Stops extendsExpression (tokens ++ rest)
  := by
  obtain ⟨⟨inner, rfl⟩, -⟩ := h
  rfl

/-- A condition and a body make a loop. -/
theorem isStatement_loop {condition repeated : List TokenKind}
    (h : Accepts (primary funcs) 1 extendsExpression condition) (hbody : IsBody funcs repeated) :
  IsStatement funcs (.control .loop :: (condition ++ repeated))
  := by
  intro fuel rest hfuel _
  rw [List.length_cons, List.length_append] at hfuel
  obtain ⟨e, he⟩ := h.reads (show _ ≤ fuel by omega) (hbody.stops rest)
  obtain ⟨ss, hss⟩ : ∃ ss, body funcs fuel (repeated ++ rest) = .ok (ss, rest) :=
    hbody.2.reads (by omega) (stops_never _)
  use .loop e ss
  rw [List.cons_append, List.append_assoc, statement]
  exact bind_eq_ok.mpr ⟨_, he, bind_eq_ok.mpr ⟨_, hss, rfl⟩⟩

/-- A branch may go without a second body. -/
theorem accepts_noAlternative :
  Accepts (alternative funcs) 3 extendsBranch []
  := by
  intro fuel rest _ hstops
  use []
  rw [List.nil_append]
  unfold alternative
  split
  · cases hstops
  · rfl

/-- The second body of a branch is read like any body. -/
theorem accepts_alternative {tokens : List TokenKind} (h : IsBody funcs tokens) :
  Accepts (alternative funcs) 3 extendsBranch tokens
  := by
  intro fuel rest hfuel _
  obtain ⟨⟨inner, rfl⟩, hbody⟩ := h
  exact hbody fuel rest hfuel (stops_never _)

/-- A condition, a body and perhaps a second body make a branch. -/
theorem isStatement_branch {condition consequence other : List TokenKind}
    (h : Accepts (primary funcs) 1 extendsExpression condition) (hbody : IsBody funcs consequence)
    (hother : Accepts (alternative funcs) 3 extendsBranch other) :
  IsStatement funcs (.control .branch :: (condition ++ (consequence ++ other)))
  := by
  intro fuel rest hfuel hstops
  simp only [List.length_cons, List.length_append] at hfuel
  obtain ⟨e, he⟩ := h.reads (show _ ≤ fuel by omega) (hbody.stops (other ++ rest))
  obtain ⟨ss, hss⟩ : ∃ ss, body funcs fuel (consequence ++ (other ++ rest))
      = .ok (ss, other ++ rest) :=
    hbody.2.reads (by omega) (stops_never _)
  obtain ⟨ss', hss'⟩ := hother.reads (show _ ≤ fuel by omega) hstops.branch
  use .branch e ss ss'
  rw [List.cons_append, List.append_assoc, List.append_assoc, statement]
  apply bind_eq_ok.mpr ⟨_, he, _⟩
  exact bind_eq_ok.mpr ⟨_, hss, bind_eq_ok.mpr ⟨_, hss', rfl⟩⟩

/-- Statements with their end marks are read up to the mark that ends the body. -/
theorem statements_ok {parts : List (List TokenKind)}
    (h : ∀ part ∈ parts, ∃ tokens, part = tokens ++ [.mark .separator] ∧ IsStatement funcs tokens) :
  ∀ {fuel : Nat} {rest : List TokenKind}, 10 * parts.flatten.length < fuel →
    ∃ ss, statements funcs fuel (parts.flatten ++ .mark .closeBrace :: rest) = .ok (ss, rest)
  := by
  induction parts with
  | nil =>
    intro fuel rest hfuel
    obtain ⟨fuel, rfl⟩ := Nat.exists_eq_add_of_le' hfuel
    use []
    rfl
  | cons part parts ih =>
    intro fuel rest hfuel
    obtain ⟨⟨tokens, rfl, htokens⟩, hothers⟩ := List.forall_mem_cons.mp h
    simp only [List.flatten_cons, List.length_append, List.length_singleton] at hfuel
    obtain ⟨fuel, rfl⟩ := Nat.exists_eq_add_of_le' (show 2 ≤ fuel by omega)
    obtain ⟨ss, hss⟩ := ih hothers (show _ < fuel + 1 by omega)
    obtain ⟨s, hs⟩ : ∃ s, statement funcs (fuel + 1)
        (tokens ++ .mark .separator :: (parts.flatten ++ .mark .closeBrace :: rest))
          = .ok (s, .mark .separator :: (parts.flatten ++ .mark .closeBrace :: rest)) :=
      htokens.reads (by omega) rfl
    use s :: ss
    rw [List.flatten_cons, List.append_assoc, List.append_assoc, List.singleton_append]
    unfold statements
    split
    · -- no statement begins with the mark that ends a body
      rename_i hend
      rw [hend] at hs
      cases hs
    · apply bind_eq_ok.mpr ⟨_, hs, _⟩
      exact bind_eq_ok.mpr ⟨_, expect_mark _ _, bind_eq_ok.mpr ⟨_, hss, rfl⟩⟩

/-- Statements with their end marks between braces make a body. -/
theorem isBody {parts : List (List TokenKind)}
    (h : ∀ part ∈ parts, ∃ tokens, part = tokens ++ [.mark .separator] ∧ IsStatement funcs tokens) :
  IsBody funcs (.mark .openBrace :: (parts.flatten ++ [.mark .closeBrace]))
  := by
  use ⟨_, rfl⟩
  intro fuel rest hfuel _
  rw [List.length_cons, List.length_append] at hfuel
  obtain ⟨ss, hss⟩ := statements_ok h (show _ < fuel + 1 by omega)
  use ss
  rw [List.cons_append, List.append_assoc, List.singleton_append, body]
  exact bind_eq_ok.mpr ⟨_, expect_mark _ _, hss⟩

/-! ### Functions -/

/-- Variables, each behind a comma, are read as parameters up to the mark that ends them. -/
theorem moreParameters_ok {parts : List (List TokenKind)}
    (h : ∀ part ∈ parts, ∃ name, part = [.mark .comma, .variable name]) (rest : List TokenKind) :
  ∃ names, moreParameters (parts.flatten ++ .mark .argumentsEnd :: rest) = .ok (names, rest)
  := by
  induction parts with
  | nil =>
    use []
    rfl
  | cons part parts ih =>
    obtain ⟨⟨name, rfl⟩, hothers⟩ := List.forall_mem_cons.mp h
    obtain ⟨names, hnames⟩ := ih hothers
    use name :: names
    rw [List.flatten_cons, List.append_assoc]
    exact bind_eq_ok.mpr ⟨_, hnames, rfl⟩

/-- Token lists that are read as the parameters of a function. -/
def IsParameters (tokens : List TokenKind) : Prop :=
  ∀ rest, ∃ names, parameters (tokens ++ rest) = .ok (names, rest)

/-- There may be nothing between the marks of parameters. -/
theorem isParameters_empty :
  IsParameters [.mark .argumentsBegin, .mark .argumentsEnd]
  := by
  intro rest
  use []
  rfl

/-- Variables with commas between them are read as parameters between their marks. -/
theorem isParameters (name : String) {parts : List (List TokenKind)}
    (h : ∀ part ∈ parts, ∃ name, part = [.mark .comma, .variable name]) :
  IsParameters
    (.mark .argumentsBegin :: ((.variable name :: parts.flatten) ++ [.mark .argumentsEnd]))
  := by
  intro rest
  obtain ⟨names, hnames⟩ := moreParameters_ok h rest
  use name :: names
  rw [List.cons_append, List.append_assoc]
  exact bind_eq_ok.mpr ⟨_, rfl, bind_eq_ok.mpr ⟨_, hnames, rfl⟩⟩

/-- Token lists that are read as a function, whatever follows. -/
def IsFunction (funcs : SymbolTable) (tokens : List TokenKind) : Prop :=
  (∃ inner, tokens = .mark .define :: inner)
    ∧ Accepts (definition funcs) 2 (fun _ => false) tokens

/-- The name of a known function, with or without parameters, and a body make a function. -/
theorem isFunction {name : String} {params inner : List TokenKind}
    (hname : (funcs.lookup? name).isSome) (hparams : params = [] ∨ IsParameters params)
    (hbody : IsBody funcs inner) :
  IsFunction funcs (.mark .define :: .function name :: (params ++ inner))
  := by
  use ⟨_, rfl⟩
  intro fuel rest hfuel _
  simp only [List.length_cons, List.length_append] at hfuel
  obtain ⟨names, hnames⟩ :
      ∃ names, parameters (params ++ (inner ++ rest)) = .ok (names, inner ++ rest) := by
    rcases hparams with rfl | hparams
    · obtain ⟨⟨inside, rfl⟩, -⟩ := hbody
      exact ⟨[], rfl⟩
    · apply hparams
  obtain ⟨ss, hss⟩ : ∃ ss, body funcs (fuel + 2) (inner ++ rest) = .ok (ss, rest) :=
    hbody.2.reads (by omega) (stops_never _)
  use { name, parameters := names, body := ss }
  rw [List.cons_append, List.cons_append, List.append_assoc]
  apply bind_eq_ok.mpr ⟨_, expect_mark _ _, _⟩
  apply bind_eq_ok.mpr ⟨_, functionName_known hname _, _⟩
  exact bind_eq_ok.mpr ⟨_, hnames, bind_eq_ok.mpr ⟨_, hss, rfl⟩⟩

/-- Functions are read up to the end of the input. -/
theorem definitions_ok {parts : List (List TokenKind)} (h : ∀ part ∈ parts, IsFunction funcs part) :
  ∀ {fuel : Nat}, 10 * parts.flatten.length + 3 ≤ fuel →
    ∃ ds, definitions funcs fuel parts.flatten = .ok (ds, [])
  := by
  induction parts with
  | nil =>
    intro fuel hfuel
    obtain ⟨fuel, rfl⟩ := Nat.exists_eq_add_of_le' (show 1 ≤ fuel by omega)
    use []
    rfl
  | cons part parts ih =>
    intro fuel hfuel
    obtain ⟨⟨⟨inner, rfl⟩, hpart⟩, hothers⟩ := List.forall_mem_cons.mp h
    rw [List.flatten_cons, List.length_append, List.length_cons] at hfuel
    obtain ⟨fuel, rfl⟩ := Nat.exists_eq_add_of_le' (show 1 ≤ fuel by omega)
    obtain ⟨d, hd⟩ : ∃ d, definition funcs fuel (.mark .define :: inner ++ parts.flatten)
        = .ok (d, parts.flatten) :=
      hpart.reads (by rw [List.length_cons]; omega) (stops_never _)
    obtain ⟨ds, hds⟩ := ih hothers (show _ ≤ fuel by omega)
    use d :: ds
    exact bind_eq_ok.mpr ⟨_, hd, bind_eq_ok.mpr ⟨_, hds, rfl⟩⟩

/-- One function or more make a program. -/
theorem program_ok {first : List TokenKind} {parts : List (List TokenKind)}
    (hfirst : IsFunction funcs first) (h : ∀ part ∈ parts, IsFunction funcs part) :
  ∃ p, program funcs (first ++ parts.flatten) = .ok p
  := by
  have hfuel : fuel (first ++ parts.flatten)
      = 10 * first.length + 10 * parts.flatten.length + 10 := by
    rw [fuel, List.length_append]
    omega
  obtain ⟨d, hd⟩ : ∃ d, definition funcs (fuel (first ++ parts.flatten)) (first ++ parts.flatten)
      = .ok (d, parts.flatten) :=
    hfirst.2.reads (by omega) (stops_never _)
  obtain ⟨ds, hds⟩ := definitions_ok h (show _ ≤ fuel (first ++ parts.flatten) by omega)
  use { first := d, others := ds }
  exact bind_eq_ok.mpr ⟨_, hd, bind_eq_ok.mpr ⟨_, hds, rfl⟩⟩

end Parse

end StackCompiler
