import StackCompiler.Proofs.Program.Parsed

/-!
# Renaming

Names may be replaced by others in tokens, in programs and in symbol tables.  If different names
stay different, registration and the parser commute with that: the renamed tokens make up the
renamed program, or do not fit where the tokens do not fit.
-/

namespace StackCompiler

section Definitions

variable (r : String → String)

/-- The token with its name replaced. -/
def TokenKind.rename : TokenKind → TokenKind
  | .variable name => .variable (r name)
  | .function name => .function (r name)
  | token => token

/-- The token with its name replaced, at the same place. -/
def Token.rename (token : Token) : Token :=
  { token with kind := token.kind.rename r }

/-- The table with all names replaced. -/
def SymbolTable.rename (table : SymbolTable) : SymbolTable :=
  { names := table.names.map r }

mutual

/-- The expression with all names replaced. -/
def Expr.rename : Expr → Expr
  | .number value => .number value
  | .variable name => .variable (r name)
  | .input target => .input (r target)
  | .call function arguments => .call (r function) (Expr.renameAll arguments)
  | .math op operand => .math op operand.rename
  | .arithmetic op left right => .arithmetic op left.rename right.rename
  | .comparison op left right => .comparison op left.rename right.rename

/-- The expressions with all names replaced. -/
def Expr.renameAll : List Expr → List Expr
  | [] => []
  | expr :: exprs => expr.rename :: Expr.renameAll exprs

end

mutual

/-- The statement with all names replaced. -/
def Statement.rename : Statement → Statement
  | .assign target value => .assign (r target) (value.rename r)
  | .branch condition consequence alternative =>
    .branch (condition.rename r) (Statement.renameAll consequence)
      (Statement.renameAll alternative)
  | .loop condition body => .loop (condition.rename r) (Statement.renameAll body)
  | .call function arguments => .call (r function) (Expr.renameAll r arguments)
  | .ret value => .ret (value.rename r)
  | .output op value => .output op (value.rename r)
  | .input target => .input (r target)

/-- The statements with all names replaced. -/
def Statement.renameAll : List Statement → List Statement
  | [] => []
  | statement :: statements => statement.rename :: Statement.renameAll statements

end

/-- The definition with all names replaced. -/
def Definition.rename (d : Definition) : Definition where
  name := r d.name
  parameters := d.parameters.map r
  body := Statement.renameAll r d.body

/-- The program with all names replaced. -/
def Program.rename (program : Program) : Program where
  first := program.first.rename r
  others := program.others.map (·.rename r)

/-- The error with all names replaced: of the same kind and at the same place. -/
def SyntaxError.rename : SyntaxError → SyntaxError
  | .unexpected expected found span => .unexpected expected (found.rename r) span
  | .redefinition name span => .redefinition (r name) span
  | .chainedComparison op span => .chainedComparison op span

/-- The mismatch with the names of the tokens replaced. -/
def Parse.Mismatch.rename (mismatch : Mismatch) : Mismatch :=
  { mismatch with rest := mismatch.rest.map (TokenKind.rename r) }

end Definitions

/-- A renamed error is at the place of the error. -/
theorem SyntaxError.span_rename (r : String → String) (error : SyntaxError) :
  (error.rename r).span = error.span
  := by
  cases error <;> rfl

/-- Renaming recognizes marks. -/
theorem TokenKind.rename_eq_mark_iff {r : String → String} {token : TokenKind} {m : Mark} :
  token.rename r = .mark m ↔ token = .mark m
  := by
  cases token <;> simp [rename]

/-- Renamed tokens begin with a mark only if the tokens do. -/
theorem TokenKind.map_rename_ne_mark_cons {r : String → String} {tokens : List TokenKind} {m : Mark}
    (h : ∀ rest, tokens ≠ .mark m :: rest) (rest : List TokenKind) :
  tokens.map (.rename r) ≠ .mark m :: rest
  := by
  intro heq
  obtain ⟨token, rest, rfl, htoken, -⟩ := List.map_eq_cons_iff.mp heq
  apply h rest
  rw [rename_eq_mark_iff.mp htoken]

/-- The functions that renamed tokens declare are those that the tokens declare, with their names
replaced and at the same places. -/
theorem FunctionNames.declared_rename (r : String → String) (tokens : List Token) :
  declared (tokens.map (.rename r))
    = (declared tokens).map fun (name, span) => (r name, span)
  := by
  fun_induction declared tokens with
  | case1 span name span' rest ih => exact congrArg ((r name, span') :: ·) ih
  | case2 token rest hother ih =>
    rw [List.map_cons, declared, ih]
    intro span name span' others hmark hname
    obtain ⟨⟨kind, span''⟩, rest, rfl, hkind, -⟩ := List.map_eq_cons_iff.mp hname
    obtain ⟨mark, markSpan⟩ := token
    have hdefine : mark = .mark .define :=
      TokenKind.rename_eq_mark_iff.mp (congrArg Token.kind hmark)
    have hvariable := congrArg Token.kind hkind
    cases kind <;> cases hvariable
    subst hdefine
    exact hother markSpan _ span'' rest rfl rfl
  | case3 => rfl

section Injective

variable {r : String → String} (hr : Function.Injective r)

include hr

/-! ### Symbol tables -/

/-- A replaced name stands in the renamed table where the name stands in the table. -/
theorem SymbolTable.lookup?_rename (table : SymbolTable) (name : String) :
  (table.rename r).lookup? (r name) = table.lookup? name
  := by
  rw [lookup?, lookup?, rename, List.idxOf?, List.idxOf?, List.findIdx?_map]
  congr 1
  funext other
  rw [Function.comp_apply, Bool.eq_iff_iff, beq_iff_eq, beq_iff_eq, hr.eq_iff]

/-- Entering a replaced name into the renamed table gives the same position as entering the name
into the table, and then the tables differ only in their names. -/
theorem SymbolTable.intern_rename (table : SymbolTable) (name : String) :
  (table.rename r).intern (r name)
    = ((table.intern name).1, (table.intern name).2.rename r)
  := by
  rw [intern, intern, lookup?_rename hr]
  cases table.lookup? name with
  | some index => rfl
  | none => simp [rename, size]

/-! ### Registration -/

namespace FunctionNames

/-- Entering replaced function names fails at the same redefinition, or ends with the renamed table.
-/
theorem enter_rename (funcs : SymbolTable) (names : List (String × Span)) :
  enter (funcs.rename r) (names.map fun (name, span) => (r name, span))
    = ((enter funcs names).mapError (.rename r)).map (.rename r)
  := by
  induction names generalizing funcs with
  | nil => rfl
  | cons first names ih =>
    obtain ⟨name, span⟩ := first
    rw [List.map_cons, enter, enter, SymbolTable.lookup?_rename hr, SymbolTable.intern_rename hr]
    split
    · rfl
    · apply ih

/-- A renamed token is taken for a function name if and only if the token is. -/
theorem retag_rename (funcs : SymbolTable) (token : Token) :
  retag (funcs.rename r) (token.rename r) = (retag funcs token).rename r
  := by
  match token with
  | ⟨.variable name, span⟩ =>
    rw [retag, Token.rename, TokenKind.rename]
    dsimp only
    rw [SymbolTable.lookup?_rename hr, retag]
    dsimp only
    split <;> rfl
  | ⟨.function _, _⟩ | ⟨.mark _, _⟩ | ⟨.binary _, _⟩ | ⟨.unary _, _⟩ | ⟨.control _, _⟩
  | ⟨.number _, _⟩ => rfl

/-- Registration of renamed tokens fails at the same redefinition, or gives the renamed tokens and
the renamed table. -/
theorem register_rename (tokens : List Token) (funcs : SymbolTable) :
  register (tokens.map (.rename r)) (funcs.rename r)
    = ((register tokens funcs).mapError (.rename r)).map
        fun (tokens, funcs) => (tokens.map (.rename r), funcs.rename r)
  := by
  rw [register, declared_rename, enter_rename hr, register]
  cases enter funcs (declared tokens) with
  | error error => rfl
  | ok table =>
    have htokens : (tokens.map (.rename r)).map (retag (table.rename r))
        = (tokens.map (retag table)).map (.rename r) := by
      rw [List.map_map, List.map_map]
      exact List.map_congr_left fun token _ => retag_rename hr table token
    change Except.ok (_, table.rename r) = Except.ok (_, table.rename r)
    rw [htokens]

end FunctionNames

end Injective

/-! ### Parsing -/

namespace Parse

/-- What is read and what is left, or the mismatch, with all names replaced. -/
def renameResult (r : String → String) {α : Type} (f : α → α) :
    Except Mismatch (α × List TokenKind) → Except Mismatch (α × List TokenKind)
  | .ok (a, rest) => .ok (f a, rest.map (.rename r))
  | .error mismatch => .error (mismatch.rename r)

variable {r : String → String}

/-- Reading one thing after another commutes with renaming if both readings do. -/
theorem bind_rename {α β : Type} {f : α → α} {g : β → β}
    {x x' : Except Mismatch (α × List TokenKind)}
    {next next' : α × List TokenKind → Except Mismatch (β × List TokenKind)}
    (hx : x' = renameResult r f x)
    (h : ∀ a rest, next' (f a, rest.map (.rename r)) = renameResult r g (next (a, rest))) :
  x' >>= next' = renameResult r g (x >>= next)
  := by
  rw [hx]
  match x with
  | .ok (a, rest) => apply h
  | .error _ => rfl

/-- Marks are read alike from renamed tokens. -/
theorem expect_rename (mark : Mark) (tokens : List TokenKind) :
  expect mark (tokens.map (.rename r)) = renameResult r id (expect mark tokens)
  := by
  match tokens with
  | .mark found :: rest =>
    rw [List.map_cons, TokenKind.rename, expect, expect]
    · split <;> rfl
    · nofun
    · nofun
  | [] | .binary _ :: _ | .unary _ :: _ | .control _ :: _ | .number _ :: _ | .variable _ :: _
  | .function _ :: _ => rfl

/-- The variable name that is read from renamed tokens is the one that is read from the tokens,
replaced. -/
theorem variableName_rename (tokens : List TokenKind) :
  variableName (tokens.map (.rename r)) = renameResult r r (variableName tokens)
  := by
  match tokens with
  | [] | .mark _ :: _ | .binary _ :: _ | .unary _ :: _ | .control _ :: _ | .number _ :: _
  | .variable _ :: _ | .function _ :: _ => rfl

/-- The function name that is read from renamed tokens is the one that is read from the tokens,
replaced.  It is known to the renamed table if and only if it is known to the table. -/
theorem functionName_rename (hr : Function.Injective r) (funcs : SymbolTable)
    (tokens : List TokenKind) :
  functionName (funcs.rename r) (tokens.map (.rename r))
    = renameResult r r (functionName funcs tokens)
  := by
  match tokens with
  | .function name :: rest =>
    rw [List.map_cons, TokenKind.rename, functionName, functionName,
      SymbolTable.lookup?_rename hr]
    split <;> rfl
  | [] | .mark _ :: _ | .binary _ :: _ | .unary _ :: _ | .control _ :: _ | .number _ :: _
  | .variable _ :: _ => rfl

/-- Reading the rest of a parameter list commutes with renaming. -/
theorem moreParameters_rename (tokens : List TokenKind) :
  moreParameters (tokens.map (.rename r)) = renameResult r (List.map r) (moreParameters tokens)
  := by
  fun_induction moreParameters tokens with
  | case1 name rest ih =>
    apply bind_rename ih
    intro names rest
    rfl
  | case2 tokens hother =>
    cases tokens with
    | nil => rfl
    | cons token rest =>
      cases token with
      | «variable» name => cases hother name rest rfl
      | _ => rfl
  | case3 tokens hother hother' =>
    cases tokens with
    | nil => rfl
    | cons token rest =>
      cases token with
      | mark m =>
        cases m with
        | comma => cases hother' rest rfl
        | _ => rfl
      | _ => rfl

/-- Reading a parameter list commutes with renaming. -/
theorem parameters_rename (tokens : List TokenKind) :
  parameters (tokens.map (.rename r)) = renameResult r (List.map r) (parameters tokens)
  := by
  fun_cases parameters tokens with
  | case1 rest => rfl
  | case2 tokens hother =>
    change parameters (.mark .argumentsBegin :: tokens.map (.rename r)) = _
    rw [parameters]
    · apply bind_rename (variableName_rename _)
      intro name rest
      apply bind_rename (moreParameters_rename _)
      intro names rest
      rfl
    · apply TokenKind.map_rename_ne_mark_cons hother
  | case3 tokens hother hother' =>
    have hbegin := TokenKind.map_rename_ne_mark_cons hother' (r := r)
    rw [parameters]
    · rfl
    · exact fun rest => hbegin _
    · exact hbegin

mutual

/-- Reading a comparison commutes with renaming. -/
theorem comparison_rename (hr : Function.Injective r) (funcs : SymbolTable) :
  ∀ (fuel : Nat) (tokens : List TokenKind),
    comparison (funcs.rename r) fuel (tokens.map (.rename r))
      = renameResult r (.rename r) (comparison funcs fuel tokens)
  | 0, _ => rfl
  | fuel + 1, tokens => by
      rw [comparison, comparison]
      apply bind_rename (expression_rename hr funcs fuel tokens)
      intro left rest
      match rest with
      | .binary (.comparison op) :: rest =>
        apply bind_rename (expression_rename hr funcs fuel rest)
        intro right rest
        match rest with
        | [] | .mark _ :: _ | .binary (.comparison _) :: _ | .binary (.arithmetic _) :: _
        | .binary .assign :: _ | .unary _ :: _ | .control _ :: _ | .number _ :: _
        | .variable _ :: _ | .function _ :: _ => rfl
      | [] | .mark _ :: _ | .binary (.arithmetic _) :: _ | .binary .assign :: _ | .unary _ :: _
      | .control _ :: _ | .number _ :: _ | .variable _ :: _ | .function _ :: _ => rfl

/-- Reading an expression commutes with renaming. -/
theorem expression_rename (hr : Function.Injective r) (funcs : SymbolTable) :
  ∀ (fuel : Nat) (tokens : List TokenKind),
    expression (funcs.rename r) fuel (tokens.map (.rename r))
      = renameResult r (.rename r) (expression funcs fuel tokens)
  | 0, _ => rfl
  | fuel + 1, tokens => by
      rw [expression, expression]
      apply bind_rename (term_rename hr funcs fuel tokens)
      intro left rest
      apply moreTerms_rename hr funcs fuel left rest

/-- Reading the other terms of an expression commutes with renaming, where what was read before is
renamed as well. -/
theorem moreTerms_rename (hr : Function.Injective r) (funcs : SymbolTable) :
  ∀ (fuel : Nat) (left : Expr) (tokens : List TokenKind),
    moreTerms (funcs.rename r) fuel (left.rename r) (tokens.map (.rename r))
      = renameResult r (.rename r) (moreTerms funcs fuel left tokens)
  | 0, _, _ => rfl
  | fuel + 1, left, tokens => by
      match tokens with
      | .binary (.arithmetic op) :: rest =>
        change moreTerms _ (fuel + 1) _ (.binary (.arithmetic op) :: rest.map (.rename r)) = _
        rw [moreTerms, moreTerms]
        split
        · apply bind_rename (term_rename hr funcs fuel rest)
          intro right rest
          apply moreTerms_rename hr funcs fuel (.arithmetic op left right) rest
        · rfl
      | [] | .mark _ :: _ | .binary (.comparison _) :: _ | .binary .assign :: _ | .unary _ :: _
      | .control _ :: _ | .number _ :: _ | .variable _ :: _ | .function _ :: _ => rfl

/-- Reading a term commutes with renaming. -/
theorem term_rename (hr : Function.Injective r) (funcs : SymbolTable) :
  ∀ (fuel : Nat) (tokens : List TokenKind),
    term (funcs.rename r) fuel (tokens.map (.rename r))
      = renameResult r (.rename r) (term funcs fuel tokens)
  | 0, _ => rfl
  | fuel + 1, tokens => by
      rw [term, term]
      apply bind_rename (primary_rename hr funcs fuel tokens)
      intro left rest
      apply moreFactors_rename hr funcs fuel left rest

/-- Reading the other factors of a term commutes with renaming, where what was read before is
renamed as well. -/
theorem moreFactors_rename (hr : Function.Injective r) (funcs : SymbolTable) :
  ∀ (fuel : Nat) (left : Expr) (tokens : List TokenKind),
    moreFactors (funcs.rename r) fuel (left.rename r) (tokens.map (.rename r))
      = renameResult r (.rename r) (moreFactors funcs fuel left tokens)
  | 0, _, _ => rfl
  | fuel + 1, left, tokens => by
      match tokens with
      | .binary (.arithmetic op) :: rest =>
        change moreFactors _ (fuel + 1) _ (.binary (.arithmetic op) :: rest.map (.rename r)) = _
        rw [moreFactors, moreFactors]
        split
        · apply bind_rename (primary_rename hr funcs fuel rest)
          intro right rest
          apply moreFactors_rename hr funcs fuel (.arithmetic op left right) rest
        · rfl
      | [] | .mark _ :: _ | .binary (.comparison _) :: _ | .binary .assign :: _ | .unary _ :: _
      | .control _ :: _ | .number _ :: _ | .variable _ :: _ | .function _ :: _ => rfl

/-- Reading an operand commutes with renaming: the kind of the first token says which operand it is,
and renaming keeps that kind. -/
theorem primary_rename (hr : Function.Injective r) (funcs : SymbolTable) :
  ∀ (fuel : Nat) (tokens : List TokenKind),
    primary (funcs.rename r) fuel (tokens.map (.rename r))
      = renameResult r (.rename r) (primary funcs fuel tokens)
  | 0, _ => rfl
  | fuel + 1, tokens => by
      match tokens with
      | .mark m :: rest =>
        cases m with
        | openParen =>
          apply bind_rename (comparison_rename hr funcs fuel rest)
          intro inner rest
          apply bind_rename (expect_rename _ _)
          intro _ rest
          rfl
        | _ => rfl
      | .unary (.math op) :: rest =>
        apply bind_rename (expression_rename hr funcs fuel rest)
        intro operand rest
        rfl
      | .unary .input :: rest =>
        apply bind_rename (variableName_rename _)
        intro target rest
        rfl
      | .function name :: rest =>
        apply bind_rename (functionName_rename hr _ _)
        intro function rest
        apply bind_rename (arguments_rename hr funcs fuel rest)
        intro arguments rest
        rfl
      | [] | .binary _ :: _ | .unary (.output _) :: _ | .unary .ret :: _ | .control _ :: _
      | .number _ :: _ | .variable _ :: _ => rfl

/-- Reading the arguments of a call commutes with renaming. -/
theorem arguments_rename (hr : Function.Injective r) (funcs : SymbolTable) :
  ∀ (fuel : Nat) (tokens : List TokenKind),
    arguments (funcs.rename r) fuel (tokens.map (.rename r))
      = renameResult r (Expr.renameAll r) (arguments funcs fuel tokens)
  | 0, _ => rfl
  | fuel + 1, tokens => by
      match tokens with
      | .mark m :: rest =>
        cases m with
        | argumentsBegin =>
          by_cases hend : ∀ rest', rest ≠ .mark .argumentsEnd :: rest'
          · change arguments _ (fuel + 1) (.mark .argumentsBegin :: rest.map (.rename r)) = _
            rw [arguments, arguments]
            · apply bind_rename (expression_rename hr funcs fuel rest)
              intro argument rest
              apply bind_rename (moreArguments_rename hr funcs fuel rest)
              intro arguments rest
              rfl
            · exact hend
            · apply TokenKind.map_rename_ne_mark_cons hend
          · obtain ⟨rest, rfl⟩ := not_forall_not.mp hend
            rfl
        | _ => rfl
      | [] | .binary _ :: _ | .unary _ :: _ | .control _ :: _ | .number _ :: _ | .variable _ :: _
      | .function _ :: _ => rfl

/-- Reading the rest of an argument list commutes with renaming. -/
theorem moreArguments_rename (hr : Function.Injective r) (funcs : SymbolTable) :
  ∀ (fuel : Nat) (tokens : List TokenKind),
    moreArguments (funcs.rename r) fuel (tokens.map (.rename r))
      = renameResult r (Expr.renameAll r) (moreArguments funcs fuel tokens)
  | 0, _ => rfl
  | fuel + 1, tokens => by
      match tokens with
      | .mark m :: rest =>
        cases m with
        | comma =>
          apply bind_rename (expression_rename hr funcs fuel rest)
          intro argument rest
          apply bind_rename (moreArguments_rename hr funcs fuel rest)
          intro arguments rest
          rfl
        | _ => rfl
      | [] | .binary _ :: _ | .unary _ :: _ | .control _ :: _ | .number _ :: _ | .variable _ :: _
      | .function _ :: _ => rfl

end

mutual

/-- Reading a body commutes with renaming. -/
theorem body_rename (hr : Function.Injective r) (funcs : SymbolTable) :
  ∀ (fuel : Nat) (tokens : List TokenKind),
    body (funcs.rename r) fuel (tokens.map (.rename r))
      = renameResult r (Statement.renameAll r) (body funcs fuel tokens)
  | 0, _ => rfl
  | fuel + 1, tokens => by
      rw [body, body]
      apply bind_rename (expect_rename _ _)
      intro _ rest
      apply statements_rename hr funcs fuel rest

/-- Reading statements up to the end of their body commutes with renaming. -/
theorem statements_rename (hr : Function.Injective r) (funcs : SymbolTable) :
  ∀ (fuel : Nat) (tokens : List TokenKind),
    statements (funcs.rename r) fuel (tokens.map (.rename r))
      = renameResult r (Statement.renameAll r) (statements funcs fuel tokens)
  | 0, _ => rfl
  | fuel + 1, tokens => by
      by_cases hend : ∀ rest, tokens ≠ .mark .closeBrace :: rest
      · rw [statements, statements]
        · apply bind_rename (statement_rename hr funcs fuel tokens)
          intro statement rest
          apply bind_rename (expect_rename _ _)
          intro _ rest
          apply bind_rename (statements_rename hr funcs fuel rest)
          intro statements rest
          rfl
        · exact hend
        · apply TokenKind.map_rename_ne_mark_cons hend
      · obtain ⟨rest, rfl⟩ := not_forall_not.mp hend
        rfl

/-- Reading a statement commutes with renaming: the kind of the first token says which statement it
is, and renaming keeps that kind. -/
theorem statement_rename (hr : Function.Injective r) (funcs : SymbolTable) :
  ∀ (fuel : Nat) (tokens : List TokenKind),
    statement (funcs.rename r) fuel (tokens.map (.rename r))
      = renameResult r (.rename r) (statement funcs fuel tokens)
  | 0, _ => rfl
  | fuel + 1, tokens => by
      match tokens with
      | .binary .assign :: rest =>
        apply bind_rename (variableName_rename _)
        intro target rest
        apply bind_rename (expect_rename _ _)
        intro _ rest
        apply bind_rename (comparison_rename hr funcs fuel rest)
        intro value rest
        rfl
      | .control .branch :: rest =>
        apply bind_rename (primary_rename hr funcs fuel rest)
        intro condition rest
        apply bind_rename (body_rename hr funcs fuel rest)
        intro consequence rest
        apply bind_rename (alternative_rename hr funcs fuel rest)
        intro alternative rest
        rfl
      | .control .loop :: rest =>
        apply bind_rename (primary_rename hr funcs fuel rest)
        intro condition rest
        apply bind_rename (body_rename hr funcs fuel rest)
        intro repeated rest
        rfl
      | .function name :: rest =>
        apply bind_rename (functionName_rename hr _ _)
        intro function rest
        apply bind_rename (arguments_rename hr funcs fuel rest)
        intro arguments rest
        rfl
      | .unary .ret :: rest =>
        apply bind_rename (comparison_rename hr funcs fuel rest)
        intro value rest
        rfl
      | .unary (.output op) :: rest =>
        apply bind_rename (expression_rename hr funcs fuel rest)
        intro value rest
        rfl
      | .unary .input :: rest =>
        apply bind_rename (variableName_rename _)
        intro target rest
        rfl
      | [] | .mark _ :: _ | .binary (.arithmetic _) :: _ | .binary (.comparison _) :: _
      | .unary (.math _) :: _ | .number _ :: _ | .variable _ :: _ => rfl

/-- Reading the second body of a branch commutes with renaming. -/
theorem alternative_rename (hr : Function.Injective r) (funcs : SymbolTable) :
  ∀ (fuel : Nat) (tokens : List TokenKind),
    alternative (funcs.rename r) fuel (tokens.map (.rename r))
      = renameResult r (Statement.renameAll r) (alternative funcs fuel tokens)
  | 0, _ => rfl
  | fuel + 1, tokens => by
      match tokens with
      | .mark m :: rest =>
        cases m with
        | openBrace => apply body_rename hr funcs fuel (.mark .openBrace :: rest)
        | _ => rfl
      | [] | .binary _ :: _ | .unary _ :: _ | .control _ :: _ | .number _ :: _ | .variable _ :: _
      | .function _ :: _ => rfl

end

/-- Reading a function commutes with renaming. -/
theorem definition_rename (hr : Function.Injective r) (funcs : SymbolTable) (fuel : Nat)
    (tokens : List TokenKind) :
  definition (funcs.rename r) fuel (tokens.map (.rename r))
    = renameResult r (.rename r) (definition funcs fuel tokens)
  := by
  rw [definition, definition]
  apply bind_rename (expect_rename _ _)
  intro _ rest
  apply bind_rename (functionName_rename hr _ _)
  intro name rest
  apply bind_rename (parameters_rename _)
  intro parameters rest
  apply bind_rename (body_rename hr _ _ _)
  intro body rest
  rfl

/-- Reading functions up to the end of the input commutes with renaming. -/
theorem definitions_rename (hr : Function.Injective r) (funcs : SymbolTable) (fuel : Nat)
    (tokens : List TokenKind) :
  definitions (funcs.rename r) fuel (tokens.map (.rename r))
    = renameResult r (List.map (.rename r)) (definitions funcs fuel tokens)
  := by
  induction fuel generalizing tokens with
  | zero => rfl
  | succ fuel ih =>
    cases tokens with
    | nil => rfl
    | cons token tokens =>
      rw [definitions, definitions]
      · apply bind_rename (definition_rename hr funcs fuel _)
        intro first rest
        apply bind_rename (ih _)
        intro others rest
        rfl
      · apply List.cons_ne_nil
      · apply List.cons_ne_nil

/-- Renamed tokens make up the renamed program, or do not fit where the tokens do not fit. -/
theorem program_rename (hr : Function.Injective r) (funcs : SymbolTable)
    (tokens : List TokenKind) :
  program (funcs.rename r) (tokens.map (.rename r))
    = ((program funcs tokens).mapError (.rename r)).map (.rename r)
  := by
  have hfuel : fuel (tokens.map (TokenKind.rename r)) = fuel tokens := by
    rw [fuel, fuel, List.length_map]
  rw [program, hfuel, definition_rename hr, program]
  match definition funcs (fuel tokens) tokens with
  | .error _ => rfl
  | .ok (first, rest) =>
    change definitions (funcs.rename r) (fuel tokens) (rest.map (.rename r)) >>= _ = Except.map _
      (Except.mapError _ (definitions funcs (fuel tokens) rest >>= _))
    rw [definitions_rename hr]
    cases definitions funcs (fuel tokens) rest <;> rfl

end Parse

section Tokens

variable {r : String → String}

/-- A renamed token ends the input if and only if the token does. -/
theorem Token.isEnd_rename (token : Token) :
  ((token.rename r).kind != .endOfInput) = (token.kind != .endOfInput)
  := by
  obtain ⟨kind, span⟩ := token
  cases kind <;> rfl

/-- Renamed tokens are read up to the same place. -/
theorem Token.takeWhile_rename (tokens : List Token) :
  (tokens.map (rename r)).takeWhile (·.kind != .endOfInput)
    = (tokens.takeWhile (·.kind != .endOfInput)).map (rename r)
  := by
  rw [List.takeWhile_map]
  congr 2
  exact funext Token.isEnd_rename

/-- The end of the input stands after renamed tokens where it stands after the tokens. -/
theorem Token.endAfter_rename (tokens : List Token) :
  endAfter (tokens.map (.rename r)) = (endAfter tokens).rename r
  := by
  rw [endAfter, List.getLast?_map, Option.map_map]
  rfl

/-- A renamed mismatch means the renamed error. -/
theorem Parse.Mismatch.toError_rename (tokens : List Token) (mismatch : Mismatch) :
  (mismatch.rename r).toError (tokens.map (.rename r)) = (mismatch.toError tokens).rename r
  := by
  have hfound (index : Nat) :
      ((tokens.map (Token.rename r))[index]?).getD (Token.endAfter (tokens.map (.rename r)))
        = ((tokens[index]?).getD (Token.endAfter tokens)).rename r := by
    rw [List.getElem?_map, Token.endAfter_rename, Option.getD_map]
  rw [toError, Token.takeWhile_rename, List.length_map, rename, List.length_map]
  dsimp only
  rw [hfound, toError]
  cases mismatch.complaint <;> rfl

/-- The program of renamed tokens is the renamed program, and the error in them is the renamed
error. -/
theorem Program.ofTokens_rename (hr : Function.Injective r) (funcs : SymbolTable)
    (tokens : List Token) :
  Program.ofTokens (funcs.rename r) (tokens.map (.rename r))
    = ((Program.ofTokens funcs tokens).mapError (.rename r)).map (.rename r)
  := by
  have hkinds (list : List Token) :
      (list.map (Token.rename r)).map (·.kind) = (list.map (·.kind)).map (TokenKind.rename r) := by
    rw [List.map_map, List.map_map]
    rfl
  rw [ofTokens, Token.takeWhile_rename, hkinds, Parse.program_rename hr, ofTokens]
  cases Parse.program funcs _ with
  | ok program => rfl
  | error mismatch => exact congrArg Except.error (mismatch.toError_rename tokens)

end Tokens

end StackCompiler
