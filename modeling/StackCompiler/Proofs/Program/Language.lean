import StackCompiler.Proofs.Program.Acceptance
import StackCompiler.Proofs.Program.Parsed

/-!
# The language of the parser

The parser accepts exactly the token lists of its grammar.  What the parser reads for a nonterminal
is closed under the rules, so that everything that is derived is read, and what it reads is derived.
Of a list of tokens it reads those before the first end of the input.
-/

namespace StackCompiler

namespace Parse

open Grammar

/-- The function names among the tokens are those of the table. -/
def Known (funcs : SymbolTable) (kind : TokenKind) : Prop :=
  ∀ name, kind = .function name → name ∈ funcs.names

/-- The functions that the tokens name. -/
def functionNames (tokens : List TokenKind) : SymbolTable where
  names := tokens.filterMap fun
    | .function name => some name
    | _ => none

/-- The function names of tokens are known to the table of these names. -/
theorem known_functionNames (tokens : List TokenKind) :
  ∀ kind ∈ tokens, Known (functionNames tokens) kind
  := by
  rintro kind hkind name rfl
  exact List.mem_filterMap.mpr ⟨_, hkind, rfl⟩

/-- Token lists that the parser reads for a nonterminal. -/
def Recognized (funcs : SymbolTable) : Nonterminal → List TokenKind → Prop
  | .program, tokens => ∃ read p, tokens = read ++ [.endOfInput] ∧ program funcs read = .ok p
  | .function, tokens => IsFunction funcs tokens
  | .parameters, tokens => IsParameters tokens
  | .body, tokens => IsBody funcs tokens
  | .statement, tokens => ∃ inner, tokens = inner ++ [.mark .separator] ∧ IsStatement funcs inner
  | .assign, tokens => IsStatement funcs tokens
  | .branch, tokens => IsStatement funcs tokens
  | .loop, tokens => IsStatement funcs tokens
  | .ret, tokens => IsStatement funcs tokens
  | .output, tokens => IsStatement funcs tokens
  | .call, tokens =>
    ∃ name args, tokens = .function name :: args ∧ (funcs.lookup? name).isSome
      ∧ Accepts (arguments funcs) 1 extendsCall args
  | .input, tokens => ∃ target, tokens = [.unary .input, .variable target]
  | .arguments, tokens => Accepts (arguments funcs) 1 extendsCall tokens
  | .comparison, tokens => Accepts (comparison funcs) 4 extendsComparison tokens
  | .expression, tokens => Operands funcs tokens
  | .term, tokens => Operands funcs tokens
  | .primary, tokens =>
    IsOperand funcs tokens
      ∨ ∃ op operands, tokens = .unary (.math op) :: operands ∧ Operands funcs operands
  | .value, tokens => IsOperand funcs tokens

variable {funcs : SymbolTable}

/-- What is recognized as an operand is made of operands. -/
theorem operands_of_primary {tokens : List TokenKind} (h : Recognized funcs .primary tokens) :
  Operands funcs tokens
  := by
  rcases h with h | ⟨op, operands, rfl, h⟩
  · exact .single h
  · exact .math op h

/-- What is recognized as an operand is read as one. -/
theorem accepts_primary {tokens : List TokenKind} (h : Recognized funcs .primary tokens) :
  Accepts (primary funcs) 1 extendsExpression tokens
  := by
  rcases h with h | ⟨op, operands, rfl, h⟩
  · intro fuel rest hfuel hstops
    exact h fuel rest hfuel hstops.call
  · exact accepts_math op h

/-- What the parser reads is closed under the rules of the grammar. -/
theorem recognized_of_language (nonterminal : Nonterminal) (tokens : List TokenKind)
    (h : (rules nonterminal).Language (Known funcs) (Recognized funcs) tokens) :
  Recognized funcs nonterminal tokens
  := by
  cases nonterminal with
  | program =>
    obtain ⟨first, _, rfl, hfirst, _, _, rfl, ⟨parts, rfl, hparts⟩, _, rfl, ⟨⟩, -⟩ := h
    obtain ⟨p, hp⟩ := program_ok hfirst hparts
    use first ++ parts.flatten, p
    rw [List.append_assoc]
    exact ⟨rfl, hp⟩
  | function =>
    obtain ⟨_, _, rfl, ⟨_, rfl, ⟨⟩, -⟩, _, _, rfl, ⟨_, rfl, hfunction, hknown⟩, params, inner, rfl,
      hparams, hbody⟩ := h
    cases hfunction with
    | functionName name =>
      apply isFunction (SymbolTable.isSome_lookup?.mpr (hknown name rfl)) hparams.symm hbody
  | parameters =>
    obtain ⟨_, _, rfl, ⟨_, rfl, ⟨⟩, -⟩, _, _, rfl, h, _, rfl, ⟨⟩, -⟩ := h
    rcases h with ⟨_, _, rfl, ⟨_, rfl, hvariable, -⟩, parts, rfl, hparts⟩ | rfl
    · cases hvariable with
      | «variable» name =>
        apply isParameters name
        intro part hpart
        obtain ⟨_, _, rfl, ⟨_, rfl, ⟨⟩, -⟩, _, rfl, hvariable, -⟩ := hparts part hpart
        cases hvariable with
        | «variable» other => exact ⟨other, rfl⟩
    · apply isParameters_empty
  | body =>
    obtain ⟨_, _, rfl, ⟨_, rfl, ⟨⟩, -⟩, _, _, rfl, ⟨parts, rfl, hparts⟩, _, rfl, ⟨⟩, -⟩ := h
    apply isBody hparts
  | statement =>
    obtain ⟨inner, _, rfl, h, _, rfl, ⟨⟩, -⟩ := h
    use inner, rfl
    rcases h with h | h | h | ⟨name, args, rfl, hname, hargs⟩ | h | h | ⟨target, rfl⟩
    · exact h
    · exact h
    · exact h
    · apply isStatement_call hname hargs
    · exact h
    · exact h
    · apply isStatement_input
  | assign =>
    obtain ⟨_, _, rfl, ⟨_, rfl, ⟨⟩, -⟩, _, _, rfl, ⟨_, rfl, hvariable, -⟩, _, value, rfl,
      ⟨_, rfl, ⟨⟩, -⟩, hvalue⟩ := h
    cases hvariable with
    | «variable» target => apply isStatement_assign target hvalue
  | branch =>
    obtain ⟨_, _, rfl, ⟨_, rfl, ⟨⟩, -⟩, condition, _, rfl, hcondition, consequence, other, rfl,
      hbody, hother⟩ := h
    apply isStatement_branch (accepts_primary hcondition) hbody
    rcases hother with hother | rfl
    · apply accepts_alternative hother
    · apply accepts_noAlternative
  | loop =>
    obtain ⟨_, _, rfl, ⟨_, rfl, ⟨⟩, -⟩, condition, repeated, rfl, hcondition, hbody⟩ := h
    apply isStatement_loop (accepts_primary hcondition) hbody
  | call =>
    obtain ⟨_, args, rfl, ⟨_, rfl, hfunction, hknown⟩, hargs⟩ := h
    cases hfunction with
    | functionName name =>
      use name, args, rfl, SymbolTable.isSome_lookup?.mpr (hknown name rfl)
      rcases hargs with hargs | rfl
      · exact hargs
      · apply accepts_noArguments
  | arguments =>
    obtain ⟨_, _, rfl, ⟨_, rfl, ⟨⟩, -⟩, _, _, rfl, h, _, rfl, ⟨⟩, -⟩ := h
    rcases h with ⟨first, _, rfl, hfirst, parts, rfl, hparts⟩ | rfl
    · apply accepts_arguments hfirst
      intro part hpart
      obtain ⟨_, tokens, rfl, ⟨_, rfl, ⟨⟩, -⟩, htokens⟩ := hparts part hpart
      exact ⟨tokens, rfl, htokens⟩
    · apply accepts_emptyArguments
  | ret =>
    obtain ⟨_, value, rfl, ⟨_, rfl, ⟨⟩, -⟩, hvalue⟩ := h
    apply isStatement_ret hvalue
  | output =>
    obtain ⟨_, value, rfl, ⟨_, rfl, houtput, -⟩, hvalue⟩ := h
    cases houtput with
    | output op => apply isStatement_output op hvalue
  | input =>
    obtain ⟨_, _, rfl, ⟨_, rfl, ⟨⟩, -⟩, _, rfl, hvariable, -⟩ := h
    cases hvariable with
    | «variable» target => exact ⟨target, rfl⟩
  | comparison =>
    obtain ⟨left, _, rfl, hleft, ⟨_, right, rfl, ⟨_, rfl, hcomparison, -⟩, hright⟩ | rfl⟩ := h
    · cases hcomparison with
      | comparison op => apply accepts_comparison hleft op hright
    · rw [List.append_nil]
      apply accepts_expression hleft
  | expression =>
    obtain ⟨first, _, rfl, hfirst, parts, rfl, hparts⟩ := h
    apply Operands.flatten hfirst
    intro part hpart
    obtain ⟨_, tokens, rfl, ⟨_, rfl, hadditive, -⟩, htokens⟩ := hparts part hpart
    cases hadditive with
    | @additive op hop => exact ⟨op, tokens, rfl, htokens⟩
  | term =>
    obtain ⟨first, _, rfl, hfirst, parts, rfl, hparts⟩ := h
    apply Operands.flatten (operands_of_primary hfirst)
    intro part hpart
    obtain ⟨_, tokens, rfl, ⟨_, rfl, hmultiplicative, -⟩, htokens⟩ := hparts part hpart
    cases hmultiplicative with
    | @multiplicative op hop => exact ⟨op, tokens, rfl, operands_of_primary htokens⟩
  | primary =>
    rcases h with ⟨_, _, rfl, ⟨_, rfl, ⟨⟩, -⟩, inner, _, rfl, hinner, _, rfl, ⟨⟩, -⟩
      | ⟨_, operands, rfl, ⟨_, rfl, hmath, -⟩, hoperands⟩ | ⟨target, rfl⟩ | h
    · exact .inl (isOperand_parens hinner)
    · cases hmath with
      | math op => exact .inr ⟨op, operands, rfl, hoperands⟩
    · exact .inl (isOperand_input target)
    · exact .inl h
  | value =>
    rcases h with ⟨_, rfl, hnumber, -⟩ | ⟨_, rfl, hvariable, -⟩ | ⟨name, args, rfl, hname, hargs⟩
    · cases hnumber with
      | number value => apply isOperand_number
    · cases hvariable with
      | «variable» name => apply isOperand_variable
    · apply isOperand_call hname hargs

/-- The parser reads a program exactly if it is derived from the grammar. -/
theorem program_ok_iff {tokens : List TokenKind} (h : ∀ kind ∈ tokens, Known funcs kind) :
  (∃ p, program funcs tokens = .ok p) ↔ Derives (.ref .program) (tokens ++ [.endOfInput])
  := by
  constructor
  · rintro ⟨p, hp⟩
    apply derives_of_program hp
  · intro hderives
    have hknown : ∀ kind ∈ tokens ++ [.endOfInput], Known funcs kind := by
      rw [List.forall_mem_append, List.forall_mem_singleton]
      exact ⟨h, nofun⟩
    obtain ⟨read, p, hread, hp⟩ := hderives.inLanguage recognized_of_language hknown
    rw [(List.append_inj' hread rfl).1]
    exact ⟨p, hp⟩

/-! ### The end of the input -/

/-- Nothing is read behind the end of the input. -/
theorem takeWhile_append_end {stop : Token} (hstop : stop.kind = .endOfInput)
    (before after : List Token) :
  (before ++ stop :: after).takeWhile (·.kind != .endOfInput)
    = before.takeWhile (·.kind != .endOfInput)
  := by
  induction before with
  | nil => simp [hstop]
  | cons token before ih => rw [List.cons_append, List.takeWhile_cons, List.takeWhile_cons, ih]

/-- The token that does not fit stands before the end of the input, or is the end itself. -/
theorem Mismatch.toError_append_end {stop : Token} (hstop : stop.kind = .endOfInput)
    (mismatch : Mismatch) (before after : List Token) :
  mismatch.toError (before ++ stop :: after) = mismatch.toError (before ++ [stop])
  := by
  have hlength : ((before.takeWhile (·.kind != .endOfInput)).length - mismatch.rest.length)
      < (before ++ [stop]).length := by
    have hle : (before.takeWhile (·.kind != .endOfInput)).length ≤ before.length :=
      (List.takeWhile_sublist _).length_le
    rw [List.length_append, List.length_singleton]
    omega
  have happend : before ++ stop :: after = (before ++ [stop]) ++ after := by
    rw [List.append_assoc, List.singleton_append]
  unfold toError
  dsimp only
  rw [takeWhile_append_end hstop, takeWhile_append_end hstop, happend,
    List.getElem?_append_left hlength, List.getElem?_eq_getElem hlength, Option.getD_some,
    Option.getD_some]

end Parse

/-- What stands behind the end of the input does not change the program or the error. -/
theorem Program.ofTokens_append_end {stop : Token} (hstop : stop.kind = .endOfInput)
    (funcs : SymbolTable) (before after : List Token) :
  Program.ofTokens funcs (before ++ stop :: after) = Program.ofTokens funcs (before ++ [stop])
  := by
  rw [ofTokens_eq, ofTokens_eq, Parse.takeWhile_append_end hstop, Parse.takeWhile_append_end hstop]
  congr 1
  funext mismatch
  apply mismatch.toError_append_end hstop

/-- Tokens whose function names are known are parsed exactly if the kinds of those before the first
end of the input are derived from the grammar of programs.  What stands after an end of the input
does not matter. -/
theorem parseTokens_ok_iff_derives (tokens : List Token) (entry : String) (start : Tree)
    (h : ∀ token ∈ tokens, ∀ name, token.kind = .function name → name ∈ start.funcs.names) :
  ((∃ t, (parseTokens tokens entry start).result = .ok t)
      ↔ Grammar.Derives (.ref .program)
        ((tokens.takeWhile (·.kind != .endOfInput)).map (·.kind) ++ [.endOfInput]))
    ∧ ∀ before stop after after', tokens = before ++ stop :: after → stop.kind = .endOfInput →
      parseTokens (before ++ stop :: after') entry start = parseTokens tokens entry start
  := by
  constructor
  · have hknown : ∀ kind ∈ (tokens.takeWhile (·.kind != .endOfInput)).map (·.kind),
        Parse.Known start.funcs kind := by
      intro kind hkind
      obtain ⟨token, htoken, rfl⟩ := List.mem_map.mp hkind
      apply h token ((List.takeWhile_sublist _).subset htoken)
    rw [← Parse.program_ok_iff hknown, result_parseTokens, Program.ofTokens_eq]
    cases Parse.program start.funcs ((tokens.takeWhile (·.kind != .endOfInput)).map (·.kind)) with
    | ok p => simp [Except.mapError, Except.map]
    | error mismatch => simp [Except.mapError, Except.map]
  · rintro before stop after after' rfl hstop
    unfold parseTokens
    rw [Program.ofTokens_append_end hstop _ before after,
      Program.ofTokens_append_end hstop _ before after']

/-- A function that prints `2 * SIN x + 1`, where the sum may belong to the sine or not, and a mark
after the end of the input. -/
def sineOfSum : List Token :=
  ([.mark .define, .function "main", .mark .openBrace, .unary (.output .out), .number (.ofNat 2),
    .binary (.arithmetic .mul), .unary (.math .sin), .variable "x", .binary (.arithmetic .add),
    .number (.ofNat 1), .mark .separator, .mark .closeBrace, .endOfInput, .mark .comma] :
    List TokenKind).map fun kind => { kind, span := ⟨0, 0⟩ }

/-- A program is parsed with and without the token for the end of the input. -/
theorem parseTokens_ok_sineOfSum :
  (∀ token ∈ sineOfSum, ∀ name, token.kind = .function name → name ∈ ["main"])
    ∧ Grammar.Derives (.ref .program)
      ((sineOfSum.takeWhile (·.kind != .endOfInput)).map (·.kind) ++ [.endOfInput])
    ∧ parseTokens sineOfSum.dropLast "main" { funcs := ⟨["main"]⟩ }
      = parseTokens sineOfSum "main" { funcs := ⟨["main"]⟩ }
  := by
  have hknown : ∀ token ∈ sineOfSum, ∀ name, token.kind = .function name → name ∈ ["main"] := by
    simp [sineOfSum]
  obtain ⟨hderives, hafter⟩ :=
    parseTokens_ok_iff_derives sineOfSum "main" { funcs := ⟨["main"]⟩ } hknown
  use hknown, hderives.mp ⟨_, rfl⟩
  apply hafter (sineOfSum.take 12) _ _ [] rfl rfl

end StackCompiler
