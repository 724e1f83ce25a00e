import Mathlib.Data.List.Basic
import StackCompiler.Program.Parse

/-!
# The tokens of a program

The parser reads its tokens from the front and never a mark that begins a definition, except at
the begin of one.  Apart from marks, the tokens that it reads are the symbols of what it makes of
them, in the same order: nothing is lost and nothing is added.
-/

namespace StackCompiler

/-! ### Leaves -/

mutual

/-- The numbers and names of an expression as tokens. -/
def Expr.leaves : Expr → List TokenKind
  | .number value => [.number value]
  | .variable name => [.variable name]
  | .input target => [.variable target]
  | .call function arguments => .function function :: Expr.leavesOfAll arguments
  | .math _ operand => operand.leaves
  | .arithmetic _ left right => left.leaves ++ right.leaves
  | .comparison _ left right => left.leaves ++ right.leaves

/-- The numbers and names of several expressions as tokens. -/
def Expr.leavesOfAll : List Expr → List TokenKind
  | [] => []
  | expr :: exprs => expr.leaves ++ Expr.leavesOfAll exprs

end

mutual

/-- The numbers and names of a statement as tokens. -/
def Statement.leaves : Statement → List TokenKind
  | .assign target value => .variable target :: value.leaves
  | .branch condition consequence alternative =>
    condition.leaves
      ++ (Statement.leavesOfAll consequence ++ Statement.leavesOfAll alternative)
  | .loop condition body => condition.leaves ++ Statement.leavesOfAll body
  | .call function arguments => .function function :: Expr.leavesOfAll arguments
  | .ret value => value.leaves
  | .output _ value => value.leaves
  | .input target => [.variable target]

/-- The numbers and names of several statements as tokens. -/
def Statement.leavesOfAll : List Statement → List TokenKind
  | [] => []
  | statement :: statements => statement.leaves ++ Statement.leavesOfAll statements

end

/-- The numbers and names of a definition as tokens, apart from its own name. -/
def Definition.leaves (definition : Definition) : List TokenKind :=
  definition.parameters.map .variable ++ Statement.leavesOfAll definition.body

/-! ### Symbols -/

/-- Whether a token is more than a mark. -/
def TokenKind.isSymbol : TokenKind → Bool
  | .mark _ => false
  | _ => true

mutual

/-- The tokens of an expression in the order of the source, apart from marks. -/
def Expr.symbols : Expr → List TokenKind
  | .number value => [.number value]
  | .variable name => [.variable name]
  | .input target => [.unary .input, .variable target]
  | .call function arguments => .function function :: Expr.symbolsOfAll arguments
  | .math op operand => .unary (.math op) :: operand.symbols
  | .arithmetic op left right => left.symbols ++ .binary (.arithmetic op) :: right.symbols
  | .comparison op left right => left.symbols ++ .binary (.comparison op) :: right.symbols

/-- The tokens of several expressions, apart from marks. -/
def Expr.symbolsOfAll : List Expr → List TokenKind
  | [] => []
  | expr :: exprs => expr.symbols ++ Expr.symbolsOfAll exprs

end

mutual

/-- The tokens of a statement in the order of the source, apart from marks. -/
def Statement.symbols : Statement → List TokenKind
  | .assign target value => .binary .assign :: .variable target :: value.symbols
  | .branch condition consequence alternative =>
    .control .branch
      :: (condition.symbols
        ++ (Statement.symbolsOfAll consequence ++ Statement.symbolsOfAll alternative))
  | .loop condition body =>
    .control .loop :: (condition.symbols ++ Statement.symbolsOfAll body)
  | .call function arguments => .function function :: Expr.symbolsOfAll arguments
  | .ret value => .unary .ret :: value.symbols
  | .output op value => .unary (.output op) :: value.symbols
  | .input target => [.unary .input, .variable target]

/-- The tokens of several statements, apart from marks. -/
def Statement.symbolsOfAll : List Statement → List TokenKind
  | [] => []
  | statement :: statements => statement.symbols ++ Statement.symbolsOfAll statements

end

/-- The tokens of a definition after its name, apart from marks. -/
def Definition.symbols (definition : Definition) : List TokenKind :=
  definition.parameters.map .variable ++ Statement.symbolsOfAll definition.body

mutual

/-- The leaves of an expression stand among its symbols in the same order. -/
theorem Expr.leaves_sublist_symbols :
  ∀ (e : Expr), e.leaves.Sublist e.symbols
  | .number _ => .refl _
  | .variable _ => .refl _
  | .input _ => .cons _ (.refl _)
  | .call _ arguments => .cons_cons _ (Expr.leavesOfAll_sublist_symbols arguments)
  | .math _ operand => .cons _ operand.leaves_sublist_symbols
  | .arithmetic _ left right =>
      left.leaves_sublist_symbols.append (.cons _ right.leaves_sublist_symbols)
  | .comparison _ left right =>
      left.leaves_sublist_symbols.append (.cons _ right.leaves_sublist_symbols)

/-- The leaves of expressions stand among their symbols in the same order. -/
theorem Expr.leavesOfAll_sublist_symbols :
  ∀ (es : List Expr), (Expr.leavesOfAll es).Sublist (Expr.symbolsOfAll es)
  | [] => .refl _
  | e :: es => e.leaves_sublist_symbols.append (Expr.leavesOfAll_sublist_symbols es)

end

mutual

/-- The leaves of a statement stand among its symbols in the same order. -/
theorem Statement.leaves_sublist_symbols :
  ∀ (s : Statement), s.leaves.Sublist s.symbols
  | .assign _ value => .cons _ (.cons_cons _ value.leaves_sublist_symbols)
  | .branch condition consequence alternative => by
      have harms := (Statement.leavesOfAll_sublist_symbols consequence).append
        (Statement.leavesOfAll_sublist_symbols alternative)
      exact .cons _ (condition.leaves_sublist_symbols.append harms)
  | .loop condition body => by
      have hbody := Statement.leavesOfAll_sublist_symbols body
      exact .cons _ (condition.leaves_sublist_symbols.append hbody)
  | .call _ arguments => .cons_cons _ (Expr.leavesOfAll_sublist_symbols arguments)
  | .ret value => .cons _ value.leaves_sublist_symbols
  | .output _ value => .cons _ value.leaves_sublist_symbols
  | .input _ => .cons _ (.refl _)

/-- The leaves of statements stand among their symbols in the same order. -/
theorem Statement.leavesOfAll_sublist_symbols :
  ∀ (ss : List Statement), (Statement.leavesOfAll ss).Sublist (Statement.symbolsOfAll ss)
  | [] => .refl _
  | s :: ss => s.leaves_sublist_symbols.append (Statement.leavesOfAll_sublist_symbols ss)

end

/-- The leaves of a function stand among its symbols in the same order. -/
theorem Definition.leaves_sublist_symbols (d : Definition) :
  d.leaves.Sublist d.symbols
  := (List.Sublist.refl _).append (Statement.leavesOfAll_sublist_symbols d.body)

namespace Parse

/-! ### Tokens that are read -/

/-- What is read goes up to `rest`, consists of the given symbols and of marks, and begins no
definition. -/
def Reads (tokens rest symbols : List TokenKind) : Prop :=
  ∃ used, tokens = used ++ rest ∧ used.filter TokenKind.isSymbol = symbols
    ∧ .mark .define ∉ used

namespace Reads

variable {tokens middle rest symbols symbols' : List TokenKind}

/-- Nothing is read. -/
theorem refl (tokens : List TokenKind) :
  Reads tokens tokens []
  := by
  use []
  simp

/-- What is read first stands before what is read next. -/
theorem trans (h : Reads tokens middle symbols) (h' : Reads middle rest symbols') :
  Reads tokens rest (symbols ++ symbols')
  := by
  obtain ⟨used, rfl, rfl, hdefine⟩ := h
  obtain ⟨used', rfl, rfl, hdefine'⟩ := h'
  use used ++ used'
  rw [List.append_assoc, List.filter_append, List.mem_append]
  exact ⟨rfl, rfl, not_or.mpr ⟨hdefine, hdefine'⟩⟩

/-- A mark that is read. -/
theorem mark {m : Mark} (h : Reads tokens rest symbols) (hmark : m ≠ .define) :
  Reads (.mark m :: tokens) rest symbols
  := by
  obtain ⟨used, rfl, rfl, hdefine⟩ := h
  use .mark m :: used, rfl, rfl
  apply List.not_mem_cons_of_ne_of_not_mem _ hdefine
  intro heq
  cases heq
  apply hmark rfl

/-- A token that is read and is no mark. -/
theorem symbol {token : TokenKind} (h : Reads tokens rest symbols) (htoken : token.isSymbol) :
  Reads (token :: tokens) rest (token :: symbols)
  := by
  obtain ⟨used, rfl, rfl, hdefine⟩ := h
  use token :: used, rfl, List.filter_cons_of_pos htoken
  apply List.not_mem_cons_of_ne_of_not_mem _ hdefine
  rintro rfl
  cases htoken

end Reads

/-- One part after the other succeeds if and only if both do. -/
theorem bind_eq_ok {ε α β : Type} {x : Except ε α} {f : α → Except ε β} {b : β} :
  x >>= f = .ok b ↔ ∃ a, x = .ok a ∧ f a = .ok b
  := by
  cases x with
  | error e => simp [bind, Except.bind]
  | ok a => simp [bind, Except.bind]

/-- If a mark is read, then it is the first token. -/
theorem expect_reads {mark : Mark} {tokens rest : List TokenKind}
    (h : expect mark tokens = .ok ((), rest)) :
  tokens = .mark mark :: rest
  := by
  unfold expect at h
  split at h
  · split at h
    · rename_i hfound
      cases h
      rw [hfound]
    · cases h
  · cases h

/-- If a variable is read, then it is the first token. -/
theorem variableName_reads {tokens rest : List TokenKind} {name : String}
    (h : variableName tokens = .ok (name, rest)) :
  tokens = .variable name :: rest
  := by
  unfold variableName at h
  split at h
  · cases h
    rfl
  · cases h

/-- If a function name is read, then it is the first token. -/
theorem functionName_reads {funcs : SymbolTable} {tokens rest : List TokenKind} {name : String}
    (h : functionName funcs tokens = .ok (name, rest)) :
  tokens = .function name :: rest
  := by
  unfold functionName at h
  split at h
  · split at h
    · cases h
      rfl
    · cases h
  · cases h

variable {funcs : SymbolTable}

mutual

/-- The symbols of a comparison are read in their order. -/
theorem comparison_reads :
  ∀ (fuel : Nat) {tokens rest : List TokenKind} {e : Expr},
    comparison funcs fuel tokens = .ok (e, rest) → Reads tokens rest e.symbols
  | 0, _, _, _, h => by cases h
  | fuel + 1, tokens, rest, e, h => by
      rw [comparison] at h
      obtain ⟨⟨left, middle⟩, hleft, h⟩ := bind_eq_ok.mp h
      have hreads := expression_reads fuel hleft
      dsimp only at h
      split at h
      · obtain ⟨⟨right, stop⟩, hright, h⟩ := bind_eq_ok.mp h
        have hreads' := expression_reads fuel hright
        dsimp only at h
        split at h
        · cases h
        · cases h
          exact hreads.trans (hreads'.symbol rfl)
      · cases h
        apply hreads

/-- The symbols of an expression are read in their order. -/
theorem expression_reads :
  ∀ (fuel : Nat) {tokens rest : List TokenKind} {e : Expr},
    expression funcs fuel tokens = .ok (e, rest) → Reads tokens rest e.symbols
  | 0, _, _, _, h => by cases h
  | fuel + 1, tokens, rest, e, h => by
      rw [expression] at h
      obtain ⟨⟨left, middle⟩, hleft, h⟩ := bind_eq_ok.mp h
      obtain ⟨more, hmore, hsymbols⟩ := moreTerms_reads fuel h
      rw [hsymbols]
      apply (term_reads fuel hleft).trans hmore

/-- The symbols of the terms that follow come after those of `left`. -/
theorem moreTerms_reads :
  ∀ (fuel : Nat) {left : Expr} {tokens rest : List TokenKind} {e : Expr},
    moreTerms funcs fuel left tokens = .ok (e, rest) →
    ∃ more, Reads tokens rest more ∧ e.symbols = left.symbols ++ more
  | 0, _, _, _, _, h => by cases h
  | fuel + 1, left, tokens, rest, e, h => by
      unfold moreTerms at h
      split at h
      · split at h
        · obtain ⟨⟨right, middle⟩, hright, h⟩ := bind_eq_ok.mp h
          obtain ⟨more, hmore, hsymbols⟩ := moreTerms_reads fuel h
          refine ⟨_, ((term_reads fuel hright).trans hmore).symbol rfl, ?_⟩
          rw [hsymbols, Expr.symbols, List.append_assoc, List.cons_append]
        · cases h
          use [], Reads.refl _
          rw [List.append_nil]
      · cases h
        use [], Reads.refl _
        rw [List.append_nil]

/-- The symbols of a term are read in their order. -/
theorem term_reads :
  ∀ (fuel : Nat) {tokens rest : List TokenKind} {e : Expr},
    term funcs fuel tokens = .ok (e, rest) → Reads tokens rest e.symbols
  | 0, _, _, _, h => by cases h
  | fuel + 1, tokens, rest, e, h => by
      rw [term] at h
      obtain ⟨⟨left, middle⟩, hleft, h⟩ := bind_eq_ok.mp h
      obtain ⟨more, hmore, hsymbols⟩ := moreFactors_reads fuel h
      rw [hsymbols]
      apply (primary_reads fuel hleft).trans hmore

/-- The symbols of the factors that follow come after those of `left`. -/
theorem moreFactors_reads :
  ∀ (fuel : Nat) {left : Expr} {tokens rest : List TokenKind} {e : Expr},
    moreFactors funcs fuel left tokens = .ok (e, rest) →
    ∃ more, Reads tokens rest more ∧ e.symbols = left.symbols ++ more
  | 0, _, _, _, _, h => by cases h
  | fuel + 1, left, tokens, rest, e, h => by
      unfold moreFactors at h
      split at h
      · split at h
        · obtain ⟨⟨right, middle⟩, hright, h⟩ := bind_eq_ok.mp h
          obtain ⟨more, hmore, hsymbols⟩ := moreFactors_reads fuel h
          refine ⟨_, ((primary_reads fuel hright).trans hmore).symbol rfl, ?_⟩
          rw [hsymbols, Expr.symbols, List.append_assoc, List.cons_append]
        · cases h
          use [], Reads.refl _
          rw [List.append_nil]
      · cases h
        use [], Reads.refl _
        rw [List.append_nil]

/-- The symbols of an operand are read in their order. -/
theorem primary_reads :
  ∀ (fuel : Nat) {tokens rest : List TokenKind} {e : Expr},
    primary funcs fuel tokens = .ok (e, rest) → Reads tokens rest e.symbols
  | 0, _, _, _, h => by cases h
  | fuel + 1, tokens, rest, e, h => by
      unfold primary at h
      split at h
      · obtain ⟨⟨inner, middle⟩, hinner, h⟩ := bind_eq_ok.mp h
        obtain ⟨⟨⟨⟩, stop⟩, hclose, h⟩ := bind_eq_ok.mp h
        have hreads := comparison_reads fuel hinner
        rw [expect_reads hclose] at hreads
        cases h
        have hall := hreads.trans ((Reads.refl _).mark nofun)
        rw [List.append_nil] at hall
        exact hall.mark nofun
      · obtain ⟨⟨operand, middle⟩, hoperand, h⟩ := bind_eq_ok.mp h
        cases h
        exact (expression_reads fuel hoperand).symbol rfl
      · obtain ⟨⟨target, middle⟩, htarget, h⟩ := bind_eq_ok.mp h
        cases h
        rw [variableName_reads htarget]
        apply Reads.symbol
        · exact (Reads.refl _).symbol rfl
        · rfl
      · cases h
        exact (Reads.refl _).symbol rfl
      · cases h
        exact (Reads.refl _).symbol rfl
      · obtain ⟨⟨function, middle⟩, hfunction, h⟩ := bind_eq_ok.mp h
        obtain ⟨⟨args, stop⟩, hargs, h⟩ := bind_eq_ok.mp h
        cases h
        rw [functionName_reads hfunction]
        exact (arguments_reads fuel hargs).symbol rfl
      · cases h

/-- The symbols of arguments are read in their order. -/
theorem arguments_reads :
  ∀ (fuel : Nat) {tokens rest : List TokenKind} {es : List Expr},
    arguments funcs fuel tokens = .ok (es, rest) → Reads tokens rest (Expr.symbolsOfAll es)
  | 0, _, _, _, h => by cases h
  | fuel + 1, tokens, rest, es, h => by
      unfold arguments at h
      split at h
      · cases h
        apply Reads.mark
        · exact (Reads.refl _).mark nofun
        · nofun
      · obtain ⟨⟨argument, middle⟩, hargument, h⟩ := bind_eq_ok.mp h
        obtain ⟨⟨args, stop⟩, hargs, h⟩ := bind_eq_ok.mp h
        cases h
        exact ((expression_reads fuel hargument).trans (moreArguments_reads fuel hargs)).mark nofun
      · cases h
        apply Reads.refl

/-- The symbols of the arguments behind the first one are read in their order. -/
theorem moreArguments_reads :
  ∀ (fuel : Nat) {tokens rest : List TokenKind} {es : List Expr},
    moreArguments funcs fuel tokens = .ok (es, rest) → Reads tokens rest (Expr.symbolsOfAll es)
  | 0, _, _, _, h => by cases h
  | fuel + 1, tokens, rest, es, h => by
      unfold moreArguments at h
      split at h
      · obtain ⟨⟨argument, middle⟩, hargument, h⟩ := bind_eq_ok.mp h
        obtain ⟨⟨args, stop⟩, hargs, h⟩ := bind_eq_ok.mp h
        cases h
        exact ((expression_reads fuel hargument).trans (moreArguments_reads fuel hargs)).mark nofun
      · obtain ⟨⟨⟨⟩, stop⟩, hend, h⟩ := bind_eq_ok.mp h
        cases h
        rw [expect_reads hend]
        exact (Reads.refl _).mark nofun

end

mutual

/-- The symbols of a body are read in their order. -/
theorem body_reads :
  ∀ (fuel : Nat) {tokens rest : List TokenKind} {ss : List Statement},
    body funcs fuel tokens = .ok (ss, rest) → Reads tokens rest (Statement.symbolsOfAll ss)
  | 0, _, _, _, h => by cases h
  | fuel + 1, tokens, rest, ss, h => by
      rw [body] at h
      obtain ⟨⟨⟨⟩, middle⟩, hopen, h⟩ := bind_eq_ok.mp h
      rw [expect_reads hopen]
      exact (statements_reads fuel h).mark nofun

/-- The symbols of statements are read in their order. -/
theorem statements_reads :
  ∀ (fuel : Nat) {tokens rest : List TokenKind} {ss : List Statement},
    statements funcs fuel tokens = .ok (ss, rest) → Reads tokens rest (Statement.symbolsOfAll ss)
  | 0, _, _, _, h => by cases h
  | fuel + 1, tokens, rest, ss, h => by
      unfold statements at h
      split at h
      · cases h
        exact (Reads.refl _).mark nofun
      · obtain ⟨⟨first, middle⟩, hfirst, h⟩ := bind_eq_ok.mp h
        obtain ⟨⟨⟨⟩, next⟩, hseparator, h⟩ := bind_eq_ok.mp h
        obtain ⟨⟨others, stop⟩, hothers, h⟩ := bind_eq_ok.mp h
        cases h
        have hreads := statement_reads fuel hfirst
        rw [expect_reads hseparator] at hreads
        exact hreads.trans ((statements_reads fuel hothers).mark nofun)

/-- The symbols of a statement are read in their order. -/
theorem statement_reads :
  ∀ (fuel : Nat) {tokens rest : List TokenKind} {s : Statement},
    statement funcs fuel tokens = .ok (s, rest) → Reads tokens rest s.symbols
  | 0, _, _, _, h => by cases h
  | fuel + 1, tokens, rest, s, h => by
      unfold statement at h
      split at h
      · obtain ⟨⟨target, middle⟩, htarget, h⟩ := bind_eq_ok.mp h
        obtain ⟨⟨⟨⟩, next⟩, hpony, h⟩ := bind_eq_ok.mp h
        obtain ⟨⟨value, stop⟩, hvalue, h⟩ := bind_eq_ok.mp h
        cases h
        rw [variableName_reads htarget, expect_reads hpony]
        have hreads : Reads (.mark .assignEnd :: next) rest value.symbols :=
          (comparison_reads fuel hvalue).mark nofun
        apply Reads.symbol
        · exact hreads.symbol rfl
        · rfl
      · obtain ⟨⟨condition, middle⟩, hcondition, h⟩ := bind_eq_ok.mp h
        obtain ⟨⟨consequence, next⟩, hconsequence, h⟩ := bind_eq_ok.mp h
        obtain ⟨⟨other, stop⟩, hother, h⟩ := bind_eq_ok.mp h
        cases h
        have harms := (body_reads fuel hconsequence).trans (alternative_reads fuel hother)
        exact ((primary_reads fuel hcondition).trans harms).symbol rfl
      · obtain ⟨⟨condition, middle⟩, hcondition, h⟩ := bind_eq_ok.mp h
        obtain ⟨⟨repeated, stop⟩, hrepeated, h⟩ := bind_eq_ok.mp h
        cases h
        exact ((primary_reads fuel hcondition).trans (body_reads fuel hrepeated)).symbol rfl
      · obtain ⟨⟨function, middle⟩, hfunction, h⟩ := bind_eq_ok.mp h
        obtain ⟨⟨args, stop⟩, hargs, h⟩ := bind_eq_ok.mp h
        cases h
        rw [functionName_reads hfunction]
        exact (arguments_reads fuel hargs).symbol rfl
      · obtain ⟨⟨value, stop⟩, hvalue, h⟩ := bind_eq_ok.mp h
        cases h
        exact (comparison_reads fuel hvalue).symbol rfl
      · obtain ⟨⟨value, stop⟩, hvalue, h⟩ := bind_eq_ok.mp h
        cases h
        exact (expression_reads fuel hvalue).symbol rfl
      · obtain ⟨⟨target, middle⟩, htarget, h⟩ := bind_eq_ok.mp h
        cases h
        rw [variableName_reads htarget]
        apply Reads.symbol
        · exact (Reads.refl _).symbol rfl
        · rfl
      · cases h

/-- The symbols of a second body are read in their order. -/
theorem alternative_reads :
  ∀ (fuel : Nat) {tokens rest : List TokenKind} {ss : List Statement},
    alternative funcs fuel tokens = .ok (ss, rest) → Reads tokens rest (Statement.symbolsOfAll ss)
  | 0, _, _, _, h => by cases h
  | fuel + 1, tokens, rest, ss, h => by
      unfold alternative at h
      split at h
      · apply body_reads fuel h
      · cases h
        apply Reads.refl

end

/-- The parameters behind the first one are read in their order. -/
theorem moreParameters_reads {tokens rest : List TokenKind} {names : List String}
    (h : moreParameters tokens = .ok (names, rest)) :
  Reads tokens rest (names.map .variable)
  := by
  fun_induction moreParameters tokens generalizing names with
  | case1 name tokens ih =>
    obtain ⟨⟨others, stop⟩, hothers, h⟩ := bind_eq_ok.mp h
    cases h
    apply Reads.mark
    · exact (ih hothers).symbol rfl
    · nofun
  | case2 tokens hother => cases h
  | case3 tokens hother hother' =>
    obtain ⟨⟨⟨⟩, stop⟩, hend, h⟩ := bind_eq_ok.mp h
    cases h
    rw [expect_reads hend]
    exact (Reads.refl _).mark nofun

/-- Parameters are read in their order. -/
theorem parameters_reads {tokens rest : List TokenKind} {names : List String}
    (h : parameters tokens = .ok (names, rest)) :
  Reads tokens rest (names.map .variable)
  := by
  unfold parameters at h
  split at h
  · cases h
    apply Reads.mark
    · exact (Reads.refl _).mark nofun
    · nofun
  · obtain ⟨⟨name, middle⟩, hname, h⟩ := bind_eq_ok.mp h
    obtain ⟨⟨others, stop⟩, hothers, h⟩ := bind_eq_ok.mp h
    cases h
    rw [variableName_reads hname]
    apply Reads.mark
    · exact (moreParameters_reads hothers).symbol rfl
    · nofun
  · cases h
    apply Reads.refl

/-- A definition is read from its mark and its name on. -/
theorem definition_reads {fuel : Nat} {tokens rest : List TokenKind} {d : Definition}
    (h : definition funcs fuel tokens = .ok (d, rest)) :
  ∃ inner, tokens = .mark .define :: .function d.name :: inner ∧ Reads inner rest d.symbols
  := by
  unfold definition at h
  obtain ⟨⟨⟨⟩, afterMark⟩, hmark, h⟩ := bind_eq_ok.mp h
  obtain ⟨⟨name, inner⟩, hname, h⟩ := bind_eq_ok.mp h
  obtain ⟨⟨names, middle⟩, hnames, h⟩ := bind_eq_ok.mp h
  obtain ⟨⟨statements, stop⟩, hbody, h⟩ := bind_eq_ok.mp h
  cases h
  use inner
  constructor
  · rw [expect_reads hmark, functionName_reads hname]
  · apply (parameters_reads hnames).trans (body_reads fuel hbody)

/-! ### Headings -/

/-- The tokens of definitions, one after the other: the mark and the name of a definition, and then
its symbols. -/
inductive ReadsAll : List TokenKind → List Definition → Prop where
  | nil : ReadsAll [] []
  | cons {d : Definition} {inner rest : List TokenKind} {ds : List Definition}
      (h : Reads inner rest d.symbols) (h' : ReadsAll rest ds) :
      ReadsAll (.mark .define :: .function d.name :: inner) (d :: ds)

/-- Functions are read one after the other. -/
theorem definitions_reads :
  ∀ (fuel : Nat) {tokens rest : List TokenKind} {ds : List Definition},
    definitions funcs fuel tokens = .ok (ds, rest) → ReadsAll tokens ds
  | 0, _, _, _, h => by cases h
  | fuel + 1, tokens, rest, ds, h => by
      unfold definitions at h
      split at h
      · cases h
        exact .nil
      · obtain ⟨⟨first, middle⟩, hfirst, h⟩ := bind_eq_ok.mp h
        obtain ⟨⟨others, stop⟩, hothers, h⟩ := bind_eq_ok.mp h
        cases h
        obtain ⟨inner, rfl, hreads⟩ := definition_reads hfirst
        exact .cons hreads (definitions_reads fuel hothers)

/-- The tokens of a program are those of its definitions. -/
theorem program_reads {tokens : List TokenKind} {p : Program}
    (h : program funcs tokens = .ok p) :
  ReadsAll tokens p.definitions
  := by
  unfold program at h
  obtain ⟨⟨first, middle⟩, hfirst, h⟩ := bind_eq_ok.mp h
  obtain ⟨⟨others, stop⟩, hothers, h⟩ := bind_eq_ok.mp h
  cases h
  obtain ⟨inner, rfl, hreads⟩ := definition_reads hfirst
  exact .cons hreads (definitions_reads _ hothers)

/-- The names of functions that directly follow the mark of a definition. -/
def headings : List TokenKind → List String
  | .mark .define :: .function name :: rest => name :: headings rest
  | _ :: rest => headings rest
  | [] => []

/-- Tokens without the keyword of functions have no heading. -/
theorem headings_append {used rest : List TokenKind} (h : .mark .define ∉ used) :
  headings (used ++ rest) = headings rest
  := by
  induction used with
  | nil => rfl
  | cons token used ih =>
    obtain ⟨htoken, hused⟩ := not_or.mp (mt List.mem_cons.mpr h)
    rw [List.cons_append, headings, ih hused]
    rintro name rest' rfl -
    apply htoken rfl

namespace ReadsAll

variable {tokens : List TokenKind} {ds : List Definition}

/-- The headings of the tokens are the names of the definitions. -/
theorem headings_eq (h : ReadsAll tokens ds) :
  headings tokens = ds.map (·.name)
  := by
  induction h with
  | nil => rfl
  | cons h h' ih =>
    obtain ⟨used, rfl, -, hdefine⟩ := h
    rw [headings, headings_append hdefine, ih, List.map_cons]

/-- The leaves of the definitions are among the tokens. -/
theorem leaves_subset (h : ReadsAll tokens ds) :
  ∀ d ∈ ds, d.leaves ⊆ tokens
  := by
  induction h with
  | nil => apply List.forall_mem_nil
  | @cons d inner rest ds h h' ih =>
    obtain ⟨used, rfl, hsymbols, -⟩ := h
    intro d' hd leaf hleaf
    rcases List.mem_cons.mp hd with rfl | hd
    · have hmem := d'.leaves_sublist_symbols.subset hleaf
      rw [← hsymbols] at hmem
      simp [(List.mem_filter.mp hmem).1]
    · simp [ih d' hd hleaf]

end ReadsAll

/-- A program that is read has the headings of the tokens for the names of its definitions, and its
other leaves are tokens too. -/
theorem headings_program {tokens : List TokenKind} {p : Program}
    (h : program funcs tokens = .ok p) :
  headings tokens = p.definitions.map (·.name) ∧ ∀ d ∈ p.definitions, d.leaves ⊆ tokens
  := ⟨(program_reads h).headings_eq, (program_reads h).leaves_subset⟩

end Parse

end StackCompiler
