import StackCompiler.Proofs.Program.Inverse
import StackCompiler.Proofs.Program.Parsed
import StackCompiler.Proofs.Program.Tables

/-!
# Parsing written programs

Before functions are registered, a function is a name like any other.  Registration finds the names
that are defined and marks them wherever they occur, which gives the tokens of a written program
back.  The parser then makes the tree of that program.
-/

namespace StackCompiler

/-! ### Marks of functions -/

namespace TokenKind

/-- The token before functions are registered. -/
def unmarked : TokenKind → TokenKind
  | .function name => .variable name
  | kind => kind

/-- The token after the functions of the table are registered. -/
def marked (funcs : SymbolTable) : TokenKind → TokenKind
  | .variable name => if (funcs.lookup? name).isSome then .function name else .variable name
  | kind => kind

/-- The name of a variable. -/
def variableName? : TokenKind → Option String
  | .variable name => some name
  | _ => none

/-- Registration recovers a token if the table holds the functions and none of the variables. -/
theorem marked_unmarked {funcs : SymbolTable} {leaves : List TokenKind} {token : TokenKind}
    (h : token.StandsAmong leaves)
    (hvariable : ∀ name, .variable name ∈ leaves → name ∉ funcs.names)
    (hfunction : ∀ name, .function name ∈ leaves → name ∈ funcs.names) :
  token.unmarked.marked funcs = token
  := by
  match token, h with
  | .variable name, h =>
    have hnone := SymbolTable.lookup?_eq_none_iff.mpr (hvariable name h)
    rw [unmarked, marked, hnone]
    · rfl
    · nofun
  | .function name, h =>
    have hsome := SymbolTable.isSome_lookup?.mpr (hfunction name h)
    rw [unmarked, marked, if_pos hsome]
  | .mark _, _ | .binary _, _ | .unary _, _ | .control _, _ | .number _, _ => rfl

/-- Only the mark itself is read as a mark before functions are registered. -/
theorem eq_of_unmarked_eq_mark {token : TokenKind} {m : Mark} (h : token.unmarked = .mark m) :
  token = .mark m
  := by
  cases token <;> cases h
  rfl

end TokenKind

namespace FunctionNames

theorem kind_retag (funcs : SymbolTable) (token : Token) :
  (retag funcs token).kind = token.kind.marked funcs
  := by
  match token with
  | ⟨.variable name, _⟩ =>
    rw [retag, TokenKind.marked, apply_ite Token.kind]
  | ⟨.function _, _⟩ | ⟨.mark _, _⟩ | ⟨.binary _, _⟩ | ⟨.unary _, _⟩ | ⟨.control _, _⟩
  | ⟨.number _, _⟩ => rfl

/-! ### Declared names -/

/-- Tokens without the mark of a definition declare nothing. -/
theorem declared_append_of_not_mem {front rest : List Token}
    (h : .mark .define ∉ front.map (·.kind)) :
  declared (front ++ rest) = declared rest
  := by
  induction front with
  | nil => rfl
  | cons token front ih =>
    rw [List.map_cons, List.mem_cons, not_or] at h
    rw [List.cons_append, declared, ih h.2]
    rintro span name span' others rfl
    exact absurd rfl h.1

/-- The names that the tokens of functions declare are the names of these functions. -/
theorem declared_tokens (style : Style) {ending : List TokenKind}
    (hending : .mark .define ∉ ending) (ds : List Written.Definition) {tokens : List Token}
    (h : tokens.map (·.kind) = (ds.flatMap (·.tokens style)).map TokenKind.unmarked ++ ending) :
  (declared tokens).map Prod.fst = ds.map (·.name)
  := by
  induction ds generalizing tokens with
  | nil =>
    have hnone : .mark .define ∉ tokens.map (·.kind) := h ▸ hending
    rw [← List.append_nil tokens, declared_append_of_not_mem hnone]
    rfl
  | cons d ds ih =>
    obtain ⟨inner, htokens, hspells⟩ := d.exists_tokens style
    rw [List.flatMap_cons, htokens, List.map_append, List.append_assoc] at h
    -- The mark and the name come first, then what belongs to this function.
    obtain ⟨⟨_, span⟩, others, rfl, rfl, hothers⟩ := List.map_eq_cons_iff.mp h
    obtain ⟨⟨_, span'⟩, others, rfl, rfl, hinner⟩ := List.map_eq_cons_iff.mp hothers
    obtain ⟨front, rest, rfl, hfront, hrest⟩ := List.map_eq_append_iff.mp hinner
    have hnone : .mark .define ∉ front.map (·.kind) := by
      rw [hfront]
      intro hmem
      obtain ⟨token, htoken, hkind⟩ := List.mem_map.mp hmem
      have hstands := hspells token htoken
      rw [TokenKind.eq_of_unmarked_eq_mark hkind] at hstands
      exact hstands.1 rfl
    change (d.name, span').1 :: (declared (front ++ rest)).map Prod.fst = _
    rw [declared_append_of_not_mem hnone, ih hrest]
    rfl

/-- Different names that are not in the table yet can all be entered. -/
theorem enter_of_nodup {funcs : SymbolTable} {names : List (String × Span)}
    (h : (funcs.names ++ names.map Prod.fst).Nodup) :
  enter funcs names = .ok { names := funcs.names ++ names.map Prod.fst }
  := by
  induction names generalizing funcs with
  | nil => rw [List.map_nil, List.append_nil, enter]
  | cons first names ih =>
    obtain ⟨name, span⟩ := first
    have hnew : name ∉ funcs.names := by
      intro hmem
      exact (List.disjoint_of_nodup_append h) hmem List.mem_cons_self
    rw [List.map_cons, List.append_cons] at h ⊢
    rw [(enter_cons_of_not_mem span names hnew).1]
    exact ih h

end FunctionNames

/-! ### The tokens of a program -/

namespace Written.Program

/-- The table of the functions of a program. -/
def functions (program : Program) : SymbolTable where
  names := program.definitions.map (·.name)

/-- The names of the variables of a program in the order in which they occur. -/
def variableNames (program : Program) : List String :=
  program.definitions.flatMap fun d => d.leaves.filterMap TokenKind.variableName?

/-- Registration recovers the tokens of a program, and none of them ends the input. -/
theorem marked_unmarked_of_mem (program : Program) {style : Style} {token : TokenKind}
    (h : token ∈ program.tokens style) :
  token.unmarked.marked program.functions = token ∧ token ≠ .endOfInput
  := by
  obtain ⟨d, hd, htoken⟩ := List.mem_flatMap.mp h
  obtain ⟨inner, htokens, hspells⟩ := d.exists_tokens style
  rw [htokens] at htoken
  rcases List.mem_cons.mp htoken with rfl | htoken
  · exact ⟨rfl, nofun⟩
  rcases List.mem_cons.mp htoken with rfl | htoken
  · have hmem : d.name ∈ program.functions.names := List.mem_map_of_mem hd
    exact ⟨if_pos (SymbolTable.isSome_lookup?.mpr hmem), nofun⟩
  have hstands := hspells token htoken
  use TokenKind.marked_unmarked hstands (program.disjoint d hd) (program.closed d hd)
  rintro rfl
  exact hstands.2 rfl

end Written.Program

namespace FunctionNames

variable {style : Style} {program : Written.Program} {ending : List TokenKind}
  {tokens : List Token}

/-- The functions of a written program can be registered, and the program has no others. -/
theorem register_tokens (hending : .mark .define ∉ ending)
    (h : tokens.map (·.kind) = (program.tokens style).map TokenKind.unmarked ++ ending) :
  register tokens {} = .ok (tokens.map (retag program.functions), program.functions)
  := by
  have hdeclared := declared_tokens style hending program.definitions h
  have henter : enter {} (declared tokens) = .ok program.functions := by
    rw [enter_of_nodup, hdeclared]
    · rfl
    · rw [hdeclared]
      exact program.distinct
  exact Parse.bind_eq_ok.mpr ⟨_, henter, rfl⟩

theorem kinds_retag_tokens (hending : ∀ kind ∈ ending, kind = .endOfInput)
    (h : tokens.map (·.kind) = (program.tokens style).map TokenKind.unmarked ++ ending) :
  (tokens.map (retag program.functions)).map (·.kind) = program.tokens style ++ ending
  := by
  have hprogram : ((program.tokens style).map TokenKind.unmarked).map (.marked program.functions)
      = program.tokens style := by
    rw [List.map_map, ← List.map_id (program.tokens style), List.map_map]
    apply List.map_congr_left
    intro token htoken
    exact (program.marked_unmarked_of_mem htoken).1
  have hrest : ending.map (.marked program.functions) = ending := by
    rw [List.eq_replicate_of_mem hending, List.map_replicate]
    rfl
  calc (tokens.map (retag program.functions)).map (·.kind)
      = (tokens.map (·.kind)).map (.marked program.functions) := by
        rw [List.map_map, List.map_map]
        exact List.map_congr_left fun token _ => kind_retag program.functions token
    _ = program.tokens style ++ ending := by rw [h, List.map_append, hprogram, hrest]

/-- What the parser is given after registration are the tokens of the program. -/
theorem takeWhile_retag_tokens (hending : ∀ kind ∈ ending, kind = .endOfInput)
    (h : tokens.map (·.kind) = (program.tokens style).map TokenKind.unmarked ++ ending) :
  ((tokens.map (retag program.functions)).takeWhile (·.kind != .endOfInput)).map (·.kind)
    = program.tokens style
  := by
  have hnone : ending.takeWhile (· != .endOfInput) = [] := by
    cases ending with
    | nil => rfl
    | cons kind ending => rw [hending kind List.mem_cons_self]; rfl
  calc ((tokens.map (retag program.functions)).takeWhile (·.kind != .endOfInput)).map (·.kind)
      = ((tokens.map (retag program.functions)).map (·.kind)).takeWhile (· != .endOfInput) :=
        (@List.takeWhile_map _ _ Token.kind (· != .endOfInput) _).symm
    _ = (program.tokens style ++ ending).takeWhile (· != .endOfInput) := by
        rw [kinds_retag_tokens hending h]
    _ = program.tokens style ++ ending.takeWhile (· != .endOfInput) := by
        apply List.takeWhile_append_of_pos
        intro token htoken
        exact bne_iff_ne.mpr (program.marked_unmarked_of_mem htoken).2
    _ = program.tokens style := by rw [hnone, List.append_nil]

end FunctionNames

/-- The marked tokens of a written program are read as that program. -/
theorem Written.Program.ofTokens_tokens {style : Style} (program : Written.Program)
    {ending : List TokenKind} {tokens : List Token} (hending : ∀ kind ∈ ending, kind = .endOfInput)
    (h : tokens.map (·.kind) = (program.tokens style).map TokenKind.unmarked ++ ending) :
  ∃ read, Program.ofTokens program.functions
      (tokens.map (FunctionNames.retag program.functions)) = .ok read
    ∧ read.definitions = program.definitions.map (·.toDefinition)
  := by
  obtain ⟨first, others, heq⟩ := List.exists_cons_of_ne_nil program.nonempty
  refine ⟨{ first := first.toDefinition, others := others.map (·.toDefinition) }, ?_, ?_⟩
  · rw [Program.ofTokens_eq, FunctionNames.takeWhile_retag_tokens hending h, Program.tokens, heq,
      Parse.program_tokens style]
    · rfl
    · rw [← heq]
      exact fun d hd => List.mem_map_of_mem hd
    · rw [← heq]
      exact program.closed
  · rw [heq]
    rfl

/-! ### The entry -/

/-- The first item with a property comes to the front, or the first of all if there is none. -/
theorem Layout.toFront_findIdx? {α : Type} (p : α → Bool) {items : List α} (h : items ≠ []) :
  ∃ before item after, items = before ++ item :: after
    ∧ (p item ∨ before = [] ∧ ∀ other ∈ items, ¬ p other)
    ∧ toFront items ((items.findIdx? p).getD 0) = item :: (before ++ after)
  := by
  cases hfound : items.findIdx? p with
  | none =>
    obtain ⟨item, after, rfl⟩ := List.exists_cons_of_ne_nil h
    refine ⟨[], item, after, rfl, .inr ⟨rfl, ?_⟩, rfl⟩
    intro other hother
    rw [List.findIdx?_eq_none_iff.mp hfound other hother]
    exact Bool.false_ne_true
  | some index =>
    obtain ⟨hlt, hitem, -⟩ := List.findIdx?_eq_some_iff_getElem.mp hfound
    refine ⟨items.take index, items[index], items.drop (index + 1), ?_, .inl hitem, ?_⟩
    · rw [List.getElem_cons_drop, List.take_append_drop]
    · rw [Option.getD_some, toFront, List.getElem?_eq_getElem hlt, Option.toList_some,
        List.singleton_append, List.eraseIdx_eq_take_drop_succ]

/-- Moving the entry to the front commutes with parsing. -/
theorem Program.entryFirst_map_toDefinition {program : Program} {ds : List Written.Definition}
    (h : program.definitions = ds.map (·.toDefinition)) (entry : String) :
  program.entryFirst entry
    = (Layout.toFront ds ((ds.findIdx? (·.name == entry)).getD 0)).map (·.toDefinition)
  := by
  rw [entryFirst, entryPosition, h, List.findIdx?_map, Layout.toFront_map]
  rfl

/-! ### Tables -/

theorem SymbolTable.foldl_enterVariable (tokens : List TokenKind) (table : SymbolTable) :
  tokens.foldl enterVariable table
    = (tokens.filterMap TokenKind.variableName?).foldl (fun table name => (table.intern name).2)
        table
  := by
  rw [List.foldl_filterMap]
  congr 1
  funext table token
  match token with
  | .variable _ | .function _ | .mark _ | .binary _ | .unary _ | .control _ | .number _ => rfl

namespace Written.Program

variable {program : Program} {read : StackCompiler.Program}

/-- The layout of a program that has the functions already adds none. -/
theorem funcs_layout (h : read.definitions = program.definitions.map (·.toDefinition))
    (entry : String) :
  (read.layout entry { funcs := program.functions }).funcs = program.functions
  := by
  rw [(read.layout_enters entry { funcs := program.functions }).2]
  apply SymbolTable.foldl_enterFunction
  intro name hname
  rw [h, List.flatMap_map] at hname
  obtain ⟨d, hd, hmem⟩ := List.mem_flatMap.mp hname
  rcases List.mem_cons.mp hmem with heq | hleaf
  · cases heq
    exact List.mem_map_of_mem hd
  · exact program.closed d hd name hleaf

/-- The layout of a program enters its variables in the order in which they occur. -/
theorem vars_layout (h : read.definitions = program.definitions.map (·.toDefinition))
    (entry : String) (funcs : SymbolTable) :
  (read.layout entry { funcs }).vars = .ofNames program.variableNames
  := by
  rw [(read.layout_enters entry { funcs }).1, SymbolTable.foldl_enterVariable, h, List.flatMap_map,
    List.filterMap_flatMap]
  rfl

end Written.Program

/-- Parsing undoes writing.  The functions of a written program can be registered, whatever its
style, and the marked tokens can be parsed.  The tree is the encoding of the program and of nothing
else, with the function named `entry`, or else the first one, in front and the others in the order
in which they are written.  A second body that is empty is encoded like one that is left out. -/
theorem parseTokens_written (program : Written.Program) (style : Style) (entry : String)
    {ending : List TokenKind} {tokens : List Token} (hending : ∀ kind ∈ ending, kind = .endOfInput)
    (h : tokens.map (·.kind) = (program.tokens style).map TokenKind.unmarked ++ ending) :
  ∃ marked funcs t, (registerFunctions tokens {}).result = .ok (marked, funcs)
    ∧ (parseTokens marked entry { funcs }).result = .ok t
    ∧ t.funcs.names = program.definitions.map (·.name)
    ∧ t.vars = .ofNames program.variableNames
    ∧ (∃ before first after, program.definitions = before ++ first :: after
      ∧ (first.name = entry ∨ before = [] ∧ ∀ d ∈ program.definitions, d.name ≠ entry)
      ∧ t.Holds {(t.root,
          Written.Definition.chainShape t.vars t.funcs (first :: (before ++ after)))})
    ∧ ∀ condition consequence,
      (Written.Statement.choice condition consequence []).shape t.vars t.funcs
        = (Written.Statement.branch condition consequence).shape t.vars t.funcs
  := by
  have hdefine : .mark .define ∉ ending := fun hmem => nomatch hending _ hmem
  have hregister := FunctionNames.register_tokens hdefine h
  obtain ⟨read, hread, hdefinitions⟩ := program.ofTokens_tokens hending h
  let t := read.layout entry { funcs := program.functions }
  obtain ⟨before, first, after, heq, hfirst, hfront⟩ :=
    Layout.toFront_findIdx? (·.name == entry) program.nonempty
  refine ⟨tokens.map (FunctionNames.retag program.functions), program.functions, t, ?_, ?_, ?_, ?_,
    ⟨before, first, after, heq, ?_, ?_⟩, ?_⟩
  · rw [result_registerFunctions, hregister]
    rfl
  · rw [result_parseTokens, hread]
    rfl
  · exact congrArg _ (Written.Program.funcs_layout hdefinitions entry)
  · exact Written.Program.vars_layout hdefinitions entry _
  · simpa using hfirst
  · have hholds := read.layout_holds entry
      (rfl : ({ funcs := program.functions } : Tree).size = 0) rfl
    rw [Program.entryFirst_map_toDefinition hdefinitions, hfront,
      Written.Definition.chainShape_toDefinition] at hholds
    exact hholds
  · intro condition consequence
    rfl

/-- Parentheses and brackets only where they are needed. -/
def Style.sparing : Style where
  encloses := Expr.isOperation
  enclosesValue _ := false
  brackets _ := false
  encloses_of_isOperation _ h := h

/-- A function that counts down from a number that is read, with the help of another function that
stands before it. -/
def Written.countdown : Written.Program where
  definitions :=
    [{ name := "less", parameters := ["n"],
       body := [.ret (.arithmetic .sub (.variable "n") (.number (.ofNat 1)))] },
     { name := "main", parameters := [],
       body :=
        [.input "k",
          .loop (.comparison .gt (.variable "k") (.number (.ofNat 0)))
            [.assign "k" (.call "less" [.variable "k"]),
              .choice (.variable "k") [.output .out (.math .sin (.variable "k"))] []]] }]
  nonempty := by simp
  distinct := by decide
  disjoint := by
    simp [Definition.leaves, Definition.toDefinition, Statement.toStatements, Statement.toStatement,
      StackCompiler.Definition.leaves, Statement.leavesOfAll, Statement.leaves, Expr.leaves,
      Expr.leavesOfAll]
  closed := by
    simp [Definition.leaves, Definition.toDefinition, Statement.toStatements, Statement.toStatement,
      StackCompiler.Definition.leaves, Statement.leavesOfAll, Statement.leaves, Expr.leaves,
      Expr.leavesOfAll]

/-- The tokens of the countdown as a scanner gives them. -/
def countdownTokens : List Token :=
  ((Written.countdown.tokens .sparing).map TokenKind.unmarked ++ [TokenKind.endOfInput]).map
    fun kind => { kind, span := ⟨0, 0⟩ }

/-- The function named `main` comes to the front of the countdown. -/
theorem parseTokens_written_countdown :
  countdownTokens.map (·.kind)
      = (Written.countdown.tokens .sparing).map TokenKind.unmarked ++ [.endOfInput]
    ∧ ∃ marked funcs t, (registerFunctions countdownTokens {}).result = .ok (marked, funcs)
      ∧ (parseTokens marked "main" { funcs }).result = .ok t
      ∧ t.funcs.names = ["less", "main"]
      ∧ t.vars.names = ["n", "k"]
      ∧ t.Holds {(t.root,
          Written.Definition.chainShape t.vars t.funcs Written.countdown.definitions.reverse)}
  := by
  have hkinds : countdownTokens.map (·.kind)
      = (Written.countdown.tokens .sparing).map TokenKind.unmarked ++ [.endOfInput] := by
    rw [countdownTokens, List.map_map]
    apply List.map_id
  obtain ⟨marked, funcs, t, hregister, hparse, hfuncs, hvars,
    ⟨before, first, after, heq, hfirst, hholds⟩, -⟩ :=
    parseTokens_written Written.countdown .sparing "main" (by simp) hkinds
  refine ⟨hkinds, marked, funcs, t, hregister, hparse, hfuncs, ?_, ?_⟩
  · rw [hvars]
    decide
  · -- Of the two ways to take out one function, only the second takes the one named so.
    rcases List.append_eq_cons_iff.mp heq.symm with ⟨rfl, hlast⟩ | ⟨before, rfl, hrest⟩
    · obtain ⟨rfl, rfl⟩ := List.cons.inj hlast
      rcases hfirst with hname | ⟨-, hnone⟩
      · exact absurd hname (by decide)
      · exact absurd rfl (hnone _ (List.mem_cons_of_mem _ List.mem_cons_self))
    · obtain ⟨rfl, hlast⟩ := List.append_eq_singleton_iff.mp hrest.symm |>.resolve_right (by simp)
      obtain ⟨rfl, rfl⟩ := List.cons.inj hlast
      exact hholds

end StackCompiler
