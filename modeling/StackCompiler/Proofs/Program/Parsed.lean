import StackCompiler.Compile
import StackCompiler.Proofs.Program.FunctionNames
import StackCompiler.Proofs.Program.Tokens

/-!
# Parsed sources

A source that is parsed is the layout of a program.  The functions of its table are those that the
program defines, in the order of the definitions and each only once, every function that is called
is one of them, and every number is finite.
-/

namespace StackCompiler

/-! ### Scanned tokens -/

/-- Whether a token can come from a source: it is no end of the input, its number is finite, and
it is not known to be a function yet. -/
def TokenKind.isScanned : TokenKind → Bool
  | .mark m => m != .endOfInput
  | .number value => value.isFinite
  | .function _ => false
  | _ => true

/-- The longest of several is one of them. -/
theorem Keyword.mem_of_foldl_longer {found : List (TokenKind × Nat)}
    {best : Option (TokenKind × Nat)} {x : TokenKind × Nat}
    (h : found.foldl longer best = some x) :
  x ∈ found ∨ best = some x
  := by
  induction found generalizing best with
  | nil => exact .inr h
  | cons first found ih =>
    rcases ih h with hmem | hbest
    · exact .inl (List.mem_cons_of_mem _ hmem)
    · cases best with
      | none =>
        obtain rfl := Option.some.inj hbest
        exact .inl List.mem_cons_self
      | some best =>
        simp only [longer] at hbest
        split at hbest
        · obtain rfl := Option.some.inj hbest
          exact .inl List.mem_cons_self
        · exact .inr hbest

/-- A keyword is scanned. -/
theorem Keyword.isScanned_of_longest? {text : List Char} {kind : TokenKind} {length : Nat}
    (h : longest? text = some (kind, length)) :
  kind.isScanned
  := by
  have hall : ∀ keyword ∈ all, keyword.2.isScanned := by decide
  rcases mem_of_foldl_longer h with hmem | hnone
  · obtain ⟨keyword, hkeyword, heq⟩ := List.mem_filterMap.mp hmem
    obtain ⟨n, -, heq⟩ := Option.map_eq_some_iff.mp heq
    rw [← (Prod.mk.inj heq).1]
    apply hall keyword hkeyword
  · cases hnone

namespace Token

/-- A lexeme is scanned. -/
theorem isScanned_of_lexeme {c : Char} {text : List Char} {kind : TokenKind}
    (h : (lexeme c text).1 = .ok kind) :
  kind.isScanned
  := by
  unfold lexeme at h
  split at h
  · rename_i hkeyword
    cases h
    apply Keyword.isScanned_of_longest? hkeyword
  · split at h
    · dsimp only at h
      split at h
      · rename_i hfinite
        cases h
        apply hfinite
      · cases h
    · split at h
      · dsimp only at h
        split at h
        · cases h
          rfl
        · cases h
      · cases h

/-- The tokens of a source come from it, except the last one, which is the end of the input. -/
theorem scanFrom_eq {position : Nat} {text : List Char} {tokens : List Token}
    (h : scanFrom position text = .ok tokens) :
  ∃ body span, tokens = body ++ [{ kind := .endOfInput, span }]
    ∧ ∀ token ∈ body, token.kind.isScanned
  := by
  fun_induction scanFrom position text generalizing tokens with
  | case1 position =>
    cases h
    use [], ⟨position, position⟩
    simp
  | case2 position c text hblank ih => apply ih h
  | case3 => cases h
  | case4 position c text hblank length span kind hlexeme =>
    rename_i ih
    obtain ⟨others, hothers, h⟩ := Parse.bind_eq_ok.mp h
    cases h
    obtain ⟨body, last, rfl, hbody⟩ := ih hothers
    use { kind, span } :: body, last, rfl
    intro token htoken
    rcases List.mem_cons.mp htoken with rfl | htoken
    · have hok : (lexeme c text).1 = .ok kind := by rw [hlexeme]
      apply isScanned_of_lexeme hok
    · apply hbody token htoken

end Token

/-! ### Function names -/

namespace FunctionNames

/-- The names that are entered go to the end of the table, each only once. -/
theorem enter_names {funcs entered : SymbolTable} {names : List (String × Span)}
    (h : enter funcs names = .ok entered) (hnodup : funcs.names.Nodup) :
  entered.names = funcs.names ++ names.map Prod.fst ∧ entered.names.Nodup
  := by
  use names_of_enter h
  induction names generalizing funcs with
  | nil =>
    cases h
    exact hnodup
  | cons first names ih =>
    obtain ⟨name, span⟩ := first
    by_cases hmem : name ∈ funcs.names
    · rw [(enter_cons_of_mem span names hmem).1] at h
      cases h
    · rw [(enter_cons_of_not_mem span names hmem).1] at h
      exact ih h (SymbolTable.nodup_extend hnodup hmem)

/-- The end of the input declares nothing. -/
theorem declared_append {body : List Token} {span : Span} :
  declared (body ++ [{ kind := .endOfInput, span }]) = declared body
  := by
  fun_induction declared body with
  | case1 _ name _ rest ih =>
    simp only [List.cons_append, declared]
    rw [ih]
  | case2 head rest hother ih =>
    rw [List.cons_append, declared, ih]
    intro _ name _ _ hhead hrest
    cases rest with
    | nil => simp at hrest
    | cons next rest =>
      apply hother _ name _ rest hhead (congrArg (· :: rest) (List.cons.inj hrest).1)
  | case3 => rfl

/-- A token of a source stays as it is or is marked as a function of the table. -/
theorem retag_cases (funcs : SymbolTable) (token : Token) :
  retag funcs token = token
    ∨ ∃ name, token.kind = .variable name ∧ name ∈ funcs.names
      ∧ (retag funcs token).kind = .function name
  := by
  unfold retag
  split
  · rename_i name hkind
    split
    · rename_i hsome
      exact .inr ⟨name, hkind, SymbolTable.isSome_lookup?.mp hsome, rfl⟩
    · exact .inl rfl
  · exact .inl rfl

/-- The headings of marked tokens are the declared names. -/
theorem headings_retag {funcs : SymbolTable} {body : List Token}
    (hbody : ∀ token ∈ body, token.kind.isScanned)
    (hdeclared : ∀ name ∈ declared body, name.1 ∈ funcs.names) :
  Parse.headings (body.map fun token => (retag funcs token).kind) = (declared body).map Prod.fst
  := by
  fun_induction declared body with
  | case1 _ name _ rest ih =>
    simp only [List.mem_cons, forall_eq_or_imp] at hbody hdeclared
    simp only [List.map_cons, retag_variable, if_pos hdeclared.1]
    rw [← ih hbody.2.2 hdeclared.2]
    rfl
  | case2 head rest hother ih =>
    simp only [List.mem_cons, forall_eq_or_imp] at hbody
    rw [← ih hbody.2 hdeclared, List.map_cons, Parse.headings]
    intro name others hhead hrest
    obtain ⟨next, tail, rfl, hnext, -⟩ := List.map_eq_cons_iff.mp hrest
    rcases retag_cases funcs head with hsame | ⟨other, -, -, hmark⟩
    · rcases retag_cases funcs next with hsame' | ⟨other, hvariable, -, -⟩
      · have hscanned := hbody.2 next List.mem_cons_self
        rw [← hsame', hnext] at hscanned
        cases hscanned
      · rw [hsame] at hhead
        apply hother head.span other next.span tail
        · rw [← hhead]
        · rw [← hvariable]
    · rw [hmark] at hhead
      cases hhead
  | case3 => rfl

end FunctionNames

/-! ### Results of runs -/

namespace Run

variable {α β : Type}

/-- What comes next starts with the result, unless there is an error. -/
theorem result_bind (x : Run α) (f : α → Run β) :
  (x >>= f).result = x.result >>= fun a => (f a).result
  := by
  obtain ⟨events, result⟩ := x
  cases result <;> rfl

/-- A report does not change the result. -/
@[simp]
theorem result_report_bind (events : List Event) (f : Unit → Run β) :
  (report events >>= f).result = (f ()).result
  := rfl

end Run

/-- A source is scanned to its tokens, or there is an error of the scanner. -/
theorem result_scanSource (source : String) :
  (scanSource source).result = (Token.scan source).mapError .scan
  := by
  unfold scanSource
  split
  · rename_i herror
    rw [herror]
    rfl
  · rename_i hok
    rw [hok]
    rfl

/-- Registration gives the tokens and the table, or there is an error of the parser. -/
theorem result_registerFunctions (tokens : List Token) (funcs : SymbolTable) :
  (registerFunctions tokens funcs).result = (FunctionNames.register tokens funcs).mapError .parse
  := by
  unfold registerFunctions
  rw [Run.result_report_bind]
  split
  · rename_i herror
    rw [herror]
    rfl
  · rename_i hok
    rw [hok]
    rfl

/-- Tokens are parsed to the layout of their program, or there is an error of the parser. -/
theorem result_parseTokens (tokens : List Token) (entry : String) (start : Tree) :
  (parseTokens tokens entry start).result
    = ((Program.ofTokens start.funcs tokens).mapError .parse).map (·.layout entry start)
  := by
  unfold parseTokens
  split
  · rename_i herror
    rw [herror]
    rfl
  · rename_i program hok
    rw [hok]
    dsimp only
    split <;> rfl

/-- A source is scanned, its functions are registered, and its program is laid out. -/
theorem result_parse (source entry : String) :
  (parse source entry).result = do
    let tokens ← (Token.scan source).mapError .scan
    let (tokens, funcs) ← (FunctionNames.register tokens {}).mapError .parse
    let program ← (Program.ofTokens funcs tokens).mapError .parse
    return program.layout entry { funcs }
  := by
  unfold parse
  rw [Run.result_bind, result_scanSource]
  congr 1
  funext tokens
  rw [Run.result_bind, result_registerFunctions]
  congr 1
  funext registered
  rw [Run.result_report_bind, result_parseTokens]
  rfl

/-! ### The program of a source -/

/-- What holds of the program of every source, with the table of its functions. -/
structure Program.Registered (program : Program) (funcs : SymbolTable) : Prop where
  names : program.definitions.map (·.name) = funcs.names
  nodup : funcs.names.Nodup
  called : ∀ d ∈ program.definitions, ∀ name, .function name ∈ d.leaves → name ∈ funcs.names
  finite : ∀ d ∈ program.definitions, ∀ value, .number value ∈ d.leaves → value.isFinite

namespace FunctionNames

/-- What the parser is given is what was scanned, with the functions marked. -/
theorem takeWhile_retag {funcs : SymbolTable} {body : List Token} {span : Span}
    (hbody : ∀ token ∈ body, token.kind.isScanned) :
  ((body ++ [({ kind := .endOfInput, span } : Token)]).map (retag funcs)).takeWhile
      (fun token => token.kind != .endOfInput)
    = body.map (retag funcs)
  := by
  rw [List.map_append, List.takeWhile_append_of_pos]
  · apply List.append_nil
  · intro token htoken
    obtain ⟨token, hmem, rfl⟩ := List.mem_map.mp htoken
    rcases retag_cases funcs token with hsame | ⟨name, -, -, hmark⟩
    · rw [hsame, bne_iff_ne]
      intro hkind
      have hscanned := hbody token hmem
      rw [hkind] at hscanned
      cases hscanned
    · rw [hmark]
      rfl

/-- A function name among registered tokens is in the table. -/
theorem mem_names_of_function {funcs : SymbolTable} {body : List Token} {name : String}
    (hbody : ∀ token ∈ body, token.kind.isScanned)
    (h : .function name ∈ body.map fun token => (retag funcs token).kind) :
  name ∈ funcs.names
  := by
  obtain ⟨token, hmem, hkind⟩ := List.mem_map.mp h
  rcases retag_cases funcs token with hsame | ⟨other, -, hother, hmark⟩
  · have hscanned := hbody token hmem
    rw [hsame] at hkind
    rw [hkind] at hscanned
    cases hscanned
  · rw [hmark] at hkind
    cases hkind
    apply hother

/-- Numbers in a source are finite. -/
theorem isFinite_of_number {funcs : SymbolTable} {body : List Token} {value : Binary64}
    (hbody : ∀ token ∈ body, token.kind.isScanned)
    (h : .number value ∈ body.map fun token => (retag funcs token).kind) :
  value.isFinite
  := by
  obtain ⟨token, hmem, hkind⟩ := List.mem_map.mp h
  rcases retag_cases funcs token with hsame | ⟨other, -, hother, hmark⟩
  · have hscanned := hbody token hmem
    rw [hsame] at hkind
    rw [hkind] at hscanned
    apply hscanned
  · rw [hmark] at hkind
    cases hkind

end FunctionNames

/-- The program is read from the tokens up to the end of the input. -/
theorem Program.ofTokens_eq (funcs : SymbolTable) (tokens : List Token) :
  Program.ofTokens funcs tokens
    = (Parse.program funcs ((tokens.takeWhile (·.kind != .endOfInput)).map (·.kind))).mapError
        (·.toError tokens)
  := by
  unfold Program.ofTokens
  dsimp only
  split
  · rename_i hok
    rw [hok]
    rfl
  · rename_i herror
    rw [herror]
    rfl

/-- To wrap errors does not change a success. -/
theorem mapError_eq_ok {ε δ α : Type} {f : ε → δ} {x : Except ε α} {a : α}
    (h : x.mapError f = .ok a) :
  x = .ok a
  := by
  cases x <;> cases h
  rfl

/-- The tokens of a source up to the end of the input, and how its program is read from them. -/
theorem Program.read_of_ofTokens {source : String} {scanned tokens : List Token}
    {funcs : SymbolTable} {program : Program} (hscan : Token.scan source = .ok scanned)
    (hregister : FunctionNames.register scanned {} = .ok (tokens, funcs))
    (hprogram : Program.ofTokens funcs tokens = .ok program) :
  ∃ body span, scanned = body ++ [{ kind := .endOfInput, span }]
    ∧ (∀ token ∈ body, token.kind.isScanned)
    ∧ FunctionNames.enter {} (FunctionNames.declared body) = .ok funcs
    ∧ Parse.program funcs (body.map fun token => (FunctionNames.retag funcs token).kind)
      = .ok program
  := by
  obtain ⟨body, span, rfl, hbody⟩ := Token.scanFrom_eq hscan
  obtain ⟨table, henter, h⟩ := Parse.bind_eq_ok.mp hregister
  cases h
  rw [FunctionNames.declared_append] at henter
  rw [Program.ofTokens_eq] at hprogram
  have hok := mapError_eq_ok hprogram
  rw [FunctionNames.takeWhile_retag hbody, List.map_map] at hok
  exact ⟨body, span, rfl, hbody, henter, hok⟩

/-- The program of a source is registered in its table. -/
theorem Program.registered_of_ofTokens {source : String} {scanned tokens : List Token}
    {funcs : SymbolTable} {program : Program} (hscan : Token.scan source = .ok scanned)
    (hregister : FunctionNames.register scanned {} = .ok (tokens, funcs))
    (hprogram : Program.ofTokens funcs tokens = .ok program) :
  program.Registered funcs
  := by
  obtain ⟨body, span, rfl, hbody, henter, hread⟩ :=
    Program.read_of_ofTokens hscan hregister hprogram
  obtain ⟨hnames, hnodup⟩ := FunctionNames.enter_names henter List.nodup_nil
  rw [List.nil_append] at hnames
  obtain ⟨hheadings, hleaves⟩ := Parse.headings_program hread
  constructor
  · rw [← hheadings, hnames]
    apply FunctionNames.headings_retag hbody
    intro name hname
    rw [hnames]
    apply List.mem_map_of_mem hname
  · apply hnodup
  · intro d hd name hname
    apply FunctionNames.mem_names_of_function hbody (hleaves d hd hname)
  · intro d hd value hvalue
    apply FunctionNames.isFinite_of_number hbody (hleaves d hd hvalue)

theorem eq_ok_of_toOption {ε α : Type} {x : Except ε α} {a : α} (h : x.toOption = some a) :
  x = .ok a
  := by
  cases x <;> cases h
  rfl

/-- A source that is parsed goes through all stages. -/
theorem parse_stages {source entry : String} {t : Tree}
    (h : (parse source entry).result = .ok t) :
  ∃ scanned tokens funcs program, Token.scan source = .ok scanned
    ∧ FunctionNames.register scanned {} = .ok (tokens, funcs)
    ∧ Program.ofTokens funcs tokens = .ok program ∧ t = program.layout entry { funcs }
  := by
  rw [result_parse] at h
  obtain ⟨scanned, hscan, h⟩ := Parse.bind_eq_ok.mp h
  obtain ⟨⟨tokens, funcs⟩, hregister, h⟩ := Parse.bind_eq_ok.mp h
  obtain ⟨program, hprogram, h⟩ := Parse.bind_eq_ok.mp h
  cases h
  exact ⟨scanned, tokens, funcs, program, mapError_eq_ok hscan, mapError_eq_ok hregister,
    mapError_eq_ok hprogram, rfl⟩

/-- The tree of a source is the layout of a program with its functions registered. -/
theorem parse_eq_ok {source entry : String} {t : Tree} (h : (parse source entry).result = .ok t) :
  ∃ (program : Program) (funcs : SymbolTable), program.Registered funcs
    ∧ t = program.layout entry { funcs }
  := by
  obtain ⟨scanned, tokens, funcs, program, hscan, hregister, hprogram, rfl⟩ := parse_stages h
  exact ⟨program, funcs, Program.registered_of_ofTokens hscan hregister hprogram, rfl⟩

end StackCompiler
