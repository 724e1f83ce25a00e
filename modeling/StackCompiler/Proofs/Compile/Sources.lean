import StackCompiler.Proofs.Assembly.Reading
import StackCompiler.Proofs.Program.Registration

/-!
# From the tokens of a source to its code

What the tokens of a source say about its program, and what code the program becomes.  The tokens
are taken as they are scanned: a function is a name like any other, and counts as a function if it
is declared somewhere.

Operators and numbers stand in the definitions as often and in the order in which they stand in the
source.  The functions that the bodies call are the declared names that occur outside of headings.
-/

namespace StackCompiler

namespace TokenKind

/-- Whether a token is an operator or a number. -/
def isFixed : TokenKind → Bool
  | .mark _ | .variable _ | .function _ => false
  | _ => true

/-- The name of a function. -/
def functionName? : TokenKind → Option String
  | .function name => some name
  | _ => none

variable {funcs : SymbolTable} {token : TokenKind}

theorem isFixed_marked (funcs : SymbolTable) (token : TokenKind) :
  (token.marked funcs).isFixed = token.isFixed
  := by
  match token with
  | .variable name =>
    rw [marked]
    split <;> rfl
  | .mark _ | .binary _ | .unary _ | .control _ | .number _ | .function _ => rfl

theorem marked_of_isFixed (h : token.isFixed) :
  token.marked funcs = token
  := by
  match token, h with
  | .binary _, _ | .unary _, _ | .control _, _ | .number _, _ => rfl

theorem marked_eq_mark_iff {m : Mark} :
  token.marked funcs = .mark m ↔ token = .mark m
  := by
  match token with
  | .variable name =>
    rw [marked]
    split <;> simp
  | .mark _ | .binary _ | .unary _ | .control _ | .number _ | .function _ => rfl

theorem count_map_marked (funcs : SymbolTable) (m : Mark) (tokens : List TokenKind) :
  (tokens.map (marked funcs)).count (.mark m) = tokens.count (.mark m)
  := by
  rw [List.count, List.countP_map]
  apply List.countP_congr
  intro token _
  rw [Function.comp_apply, beq_iff_eq, beq_iff_eq, marked_eq_mark_iff]

theorem filter_isFixed_map_marked (funcs : SymbolTable) (tokens : List TokenKind) :
  (tokens.map (marked funcs)).filter isFixed = tokens.filter isFixed
  := by
  have hsame : isFixed ∘ marked funcs = isFixed := funext (isFixed_marked funcs)
  rw [List.filter_map, hsame]
  apply (List.map_congr_left fun token htoken => ?_).trans (List.map_id _)
  exact marked_of_isFixed (List.mem_filter.mp htoken).2

theorem functionName?_of_isScanned (h : token.isScanned) :
  token.functionName? = none
  := by
  match token, h with
  | .mark _, _ | .binary _, _ | .unary _, _ | .control _, _ | .number _, _ | .variable _, _ => rfl

/-- What counts as a function is a declared name. -/
theorem functionName?_marked (h : token.functionName? = none) :
  (token.marked funcs).functionName? = token.variableName?.filter (· ∈ funcs.names)
  := by
  match token, h with
  | .variable name, _ =>
    rw [marked, variableName?]
    split
    · rename_i hname
      have hmem := SymbolTable.isSome_lookup?.mp hname
      exact (Option.filter_some_pos (p := (· ∈ funcs.names)) (decide_eq_true hmem)).symm
    · rename_i hname
      have hnot := mt SymbolTable.isSome_lookup?.mpr hname
      exact (Option.filter_some_neg (p := (· ∈ funcs.names)) (decide_eq_false hnot)).symm
  | .mark _, _ | .binary _, _ | .unary _, _ | .control _, _ | .number _, _ => rfl

/-- Only symbols name functions. -/
theorem filterMap_functionName? (tokens : List TokenKind) :
  (tokens.filter isSymbol).filterMap functionName? = tokens.filterMap functionName?
  := by
  rw [List.filterMap_filter]
  apply List.filterMap_congr
  rintro (_ | _) - <;> rfl

/-- Every operator and every number is a symbol. -/
theorem filter_isFixed_filter_isSymbol (tokens : List TokenKind) :
  (tokens.filter isSymbol).filter isFixed = tokens.filter isFixed
  := by
  rw [List.filter_filter]
  apply List.filter_congr
  rintro (_ | _) - <;> rfl

end TokenKind

/-! ### Tokens outside headings -/

namespace Parse

/-- The tokens without the headings of definitions: the mark of a definition and the token that
directly follows it are left out. -/
def withoutHeadings : List TokenKind → List TokenKind
  | .mark .define :: _ :: rest => withoutHeadings rest
  | token :: rest => token :: withoutHeadings rest
  | [] => []

theorem withoutHeadings_append {used rest : List TokenKind} (h : .mark .define ∉ used) :
  withoutHeadings (used ++ rest) = used ++ withoutHeadings rest
  := by
  induction used with
  | nil => rfl
  | cons token used ih =>
    obtain ⟨htoken, hused⟩ := not_or.mp (mt List.mem_cons.mpr h)
    rw [List.cons_append, withoutHeadings, ih hused, List.cons_append]
    rintro name rest' rfl -
    apply htoken rfl

/-- Headings are recognized by their marks alone. -/
theorem withoutHeadings_map {f : TokenKind → TokenKind}
    (hf : ∀ token, f token = .mark .define ↔ token = .mark .define) (tokens : List TokenKind) :
  withoutHeadings (tokens.map f) = (withoutHeadings tokens).map f
  := by
  fun_induction withoutHeadings tokens with
  | case1 token rest ih =>
    rw [List.map_cons, List.map_cons, (hf _).mpr rfl, withoutHeadings, ih]
  | case2 token rest hother ih =>
    rw [List.map_cons, withoutHeadings, ih, List.map_cons]
    intro token' rest' hmark hrest
    obtain ⟨next, others, rfl, -, -⟩ := List.map_eq_cons_iff.mp hrest
    apply hother next others ((hf token).mp hmark) rfl
  | case3 => rfl

theorem withoutHeadings_sublist (tokens : List TokenKind) :
  (withoutHeadings tokens).Sublist tokens
  := by
  fun_induction withoutHeadings tokens with
  | case1 token rest ih => exact .cons _ (.cons _ ih)
  | case2 token rest hother ih => exact .cons_cons _ ih
  | case3 => exact .slnil

namespace ReadsAll

variable {tokens : List TokenKind} {ds : List Definition}

/-- Every mark of a definition begins one. -/
theorem count_define (h : ReadsAll tokens ds) :
  tokens.count (.mark .define) = ds.length
  := by
  induction h with
  | nil => rfl
  | cons h h' ih =>
    obtain ⟨used, rfl, -, hdefine⟩ := h
    rw [List.count_cons_self, List.count_cons_of_ne (by simp), List.count_append,
      List.count_eq_zero_of_not_mem hdefine, ih, List.length_cons, Nat.zero_add]

/-- The symbols among the tokens are those of the definitions, and their names. -/
theorem filter_isSymbol (h : ReadsAll tokens ds) :
  tokens.filter TokenKind.isSymbol = ds.flatMap fun d => .function d.name :: d.symbols
  := by
  induction h with
  | nil => rfl
  | @cons d inner rest ds h h' ih =>
    obtain ⟨used, rfl, hsymbols, -⟩ := h
    have hfilter : (TokenKind.function d.name :: (used ++ rest)).filter TokenKind.isSymbol
        = .function d.name :: (used.filter TokenKind.isSymbol
          ++ rest.filter TokenKind.isSymbol) :=
      congrArg _ (List.filter_append used rest)
    rw [List.filter_cons_of_neg Bool.false_ne_true, hfilter, hsymbols, ih, List.flatMap_cons,
      List.cons_append]

/-- The operators and numbers among the tokens are those of the definitions. -/
theorem filter_isFixed (h : ReadsAll tokens ds) :
  tokens.filter TokenKind.isFixed = (ds.flatMap (·.symbols)).filter TokenKind.isFixed
  := by
  rw [← TokenKind.filter_isFixed_filter_isSymbol, h.filter_isSymbol, List.filter_flatMap,
    List.filter_flatMap]
  rfl

/-- The symbols outside headings are those of the definitions. -/
theorem filter_withoutHeadings (h : ReadsAll tokens ds) (ending : List TokenKind) :
  (withoutHeadings (tokens ++ ending)).filter TokenKind.isSymbol
    = ds.flatMap (·.symbols) ++ (withoutHeadings ending).filter TokenKind.isSymbol
  := by
  induction h with
  | nil => rfl
  | cons h h' ih =>
    obtain ⟨used, rfl, hsymbols, hdefine⟩ := h
    rw [List.cons_append, List.cons_append, withoutHeadings, List.append_assoc,
      withoutHeadings_append hdefine, List.filter_append, hsymbols, ih, List.flatMap_cons,
      List.append_assoc]

end ReadsAll

end Parse

/-- The declared names that occur outside of headings, in the order of the source. -/
def FunctionNames.called (tokens : List Token) : List String :=
  ((Parse.withoutHeadings (tokens.map (·.kind))).filterMap TokenKind.variableName?).filter
    (· ∈ (FunctionNames.declared tokens).map Prod.fst)

/-! ### The program of a source -/

/-- What the tokens of a source say about its program: which functions it defines, which operators
and numbers stand in it, and which functions it calls. -/
structure Program.SpelledBy (program : Program) (tokens : List Token) : Prop where
  names : (FunctionNames.declared tokens).map Prod.fst = program.definitions.map (·.name)
  count_define : (tokens.map (·.kind)).count (.mark .define) = program.definitions.length
  fixed : (tokens.map (·.kind)).filter TokenKind.isFixed
    = (program.definitions.flatMap (·.symbols)).filter TokenKind.isFixed
  called : FunctionNames.called tokens
    = (program.definitions.flatMap (·.symbols)).filterMap TokenKind.functionName?

namespace Program.SpelledBy

variable {program : Program} {tokens : List Token}

/-- Operators and numbers are counted in the source as in the program. -/
theorem countP_eq (h : program.SpelledBy tokens) {p : TokenKind → Bool}
    (hp : ∀ token, p token → token.isFixed) :
  (tokens.map (·.kind)).countP p = (program.definitions.flatMap (·.symbols)).countP p
  := by
  have hfixed (list : List TokenKind) :
      (list.filter TokenKind.isFixed).countP p = list.countP p := by
    rw [List.countP_filter]
    apply List.countP_congr
    intro token _
    rw [Bool.and_eq_true]
    exact ⟨And.left, fun htoken => ⟨htoken, hp token htoken⟩⟩
  rw [← hfixed, h.fixed, hfixed]

theorem count_eq (h : program.SpelledBy tokens) (token : TokenKind) (htoken : token.isFixed) :
  (tokens.map (·.kind)).count token = (program.definitions.flatMap (·.symbols)).count token
  := h.countP_eq fun _ heq => beq_iff_eq.mp heq ▸ htoken

end Program.SpelledBy

theorem Program.spelledBy_of_ofTokens {source : String} {scanned tokens : List Token}
    {funcs : SymbolTable} {program : Program} (hscan : Token.scan source = .ok scanned)
    (hregister : FunctionNames.register scanned {} = .ok (tokens, funcs))
    (hprogram : Program.ofTokens funcs tokens = .ok program) :
  program.SpelledBy scanned
  := by
  obtain ⟨hnames, -, -, -⟩ := Program.registered_of_ofTokens hscan hregister hprogram
  obtain ⟨body, span, rfl, hbody, henter, hread⟩ :=
    Program.read_of_ofTokens hscan hregister hprogram
  have hkinds : (body.map fun token => (FunctionNames.retag funcs token).kind)
      = (body.map (·.kind)).map (.marked funcs) := by
    rw [List.map_map]
    exact List.map_congr_left fun token _ => FunctionNames.kind_retag funcs token
  have hreads := Parse.program_reads (hkinds ▸ hread)
  have hdeclared : (FunctionNames.declared (body ++ [{ kind := .endOfInput, span }])).map Prod.fst
      = funcs.names := by
    rw [FunctionNames.declared_append, (FunctionNames.enter_names henter List.nodup_nil).1,
      List.nil_append]
  constructor
  · rw [hdeclared, hnames]
  · rw [List.map_append, List.count_append, ← TokenKind.count_map_marked funcs, hreads.count_define]
    rfl
  · rw [List.map_append, List.filter_append, ← TokenKind.filter_isFixed_map_marked funcs,
      hreads.filter_isFixed]
    apply List.append_nil
  · have hsymbols := hreads.filter_withoutHeadings [.endOfInput]
    change (Parse.withoutHeadings (_ ++ [TokenKind.endOfInput].map (.marked funcs))).filter _
      = _ ++ [] at hsymbols
    rw [List.append_nil, ← List.map_append,
      Parse.withoutHeadings_map fun _ => TokenKind.marked_eq_mark_iff] at hsymbols
    rw [FunctionNames.called, hdeclared, List.filter_filterMap, ← hsymbols,
      TokenKind.filterMap_functionName?, List.filterMap_map, List.map_append]
    apply List.filterMap_congr
    intro token htoken
    have hunmarked : token.functionName? = none := by
      rcases List.mem_append.mp ((Parse.withoutHeadings_sublist _).subset htoken) with h | h
      · obtain ⟨scanned, hmem, rfl⟩ := List.mem_map.mp h
        apply TokenKind.functionName?_of_isScanned (hbody scanned hmem)
      · rw [List.mem_singleton.mp h]
        rfl
    exact (TokenKind.functionName?_marked hunmarked).symm

/-- A table that has the functions of a program stays as it is when the program is laid out. -/
theorem Program.Registered.funcs_layout {program : Program} {funcs : SymbolTable}
    (h : program.Registered funcs) (entry : String) :
  (program.layout entry { funcs }).funcs = funcs
  := by
  rw [(program.layout_enters entry { funcs }).2]
  apply SymbolTable.foldl_enterFunction
  intro name hname
  obtain ⟨d, hd, hmem⟩ := List.mem_flatMap.mp hname
  rcases List.mem_cons.mp hmem with heq | hcalled
  · cases heq
    exact h.names ▸ List.mem_map_of_mem hd
  · apply h.called d hd name hcalled

/-! ### The code of a source -/

/-- The lines of the assembly. -/
structure Compilation.HasCode (c : Compilation) (code : List Line) : Prop where
  text : c.assembly = String.join (code.map (·.text ++ "\n"))
  assembled : assemble c.assembly = some code

/-- A source that is compiled has a program, which the tokens spell, and the lines of the assembly
are the code of that program. -/
theorem compile_program {source entry : String} {c : Compilation}
    (h : (compile source entry).result = .ok c) :
  ∃ tokens, ∃ program : Program, ∃ first others, Token.scan source = .ok tokens
    ∧ program.SpelledBy tokens
    ∧ program.Registered c.tree.funcs ∧ program.entryFirst entry = first :: others
    ∧ c.tree.LaysOut first others
    ∧ c.HasCode (Definition.programCode c.tree.vars c.tree.funcs first others {}).1
  := by
  rw [result_compile] at h
  obtain ⟨t, hparse, h⟩ := Parse.bind_eq_ok.mp h
  obtain ⟨tokens, marked, funcs, program, hscan, hregister, hprogram, rfl⟩ := parse_stages hparse
  have hregistered := Program.registered_of_ofTokens hscan hregister hprogram
  obtain ⟨first, others, heq⟩ := program.exists_entryFirst entry
  have hlays := hregistered.laysOut heq
  obtain ⟨htree, -, hassembly⟩ := hlays.compileTree_eq_ok h
  refine ⟨tokens, program, first, others, hscan, ?_, ?_, heq, ?_, ?_, ?_⟩
  · apply Program.spelledBy_of_ofTokens hscan hregister hprogram
  · rwa [htree, hregistered.funcs_layout]
  · rwa [htree]
  · rwa [htree]
  · rw [htree, hassembly]
    apply hlays.assemble_eq

/-- A loop whose condition calls another function, with a branch in it whose condition calls the
function itself. -/
def callsInLoop : String :=
  "Mellon f Black OUT 2 * x Precious Gates Mellon main Black So it begins f Black "
    ++ "One does not simply walk into Mordor main Black Gates Precious Gates Precious Gates"

theorem exists_compile_callsInLoop :
  ∃ c, (compile callsInLoop "main").result = .ok c
  := by
  have hsome : (compile callsInLoop "main").result.toOption.isSome := by decide +kernel
  obtain ⟨c, hc⟩ := Option.isSome_iff_exists.mp hsome
  exact ⟨c, eq_ok_of_toOption hc⟩

end StackCompiler
