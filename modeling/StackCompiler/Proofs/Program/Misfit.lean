import StackCompiler.Proofs.Program.Following

/-!
# The first token that does not fit

A syntax error points at the first token that does not fit.  The tokens before it begin some
program, and together with it they begin none.

That they begin a program holds because what is read before the reading is stuck can be completed.
If they also began one together with the token, then the reading for that program would have to get
past the token.  But up to the token it is the same reading, and it is stuck.
-/

namespace StackCompiler

namespace Grammar

/-- Some program begins with the tokens. -/
def Viable (tokens : List TokenKind) : Prop :=
  ∃ more, Derives (.ref .program) (tokens ++ more)

/-- Whether the rule is about parts of a program only. -/
def Rule.isInner : Rule → Bool
  | empty => true
  | token terminal => terminal != .mark .endOfInput
  | ref nonterminal => nonterminal != .program
  | sequence first second => first.isInner && second.isInner
  | choice first second => first.isInner && second.isInner
  | repeated rule => rule.isInner

theorem isInner_rules {nonterminal : Nonterminal} (h : nonterminal ≠ .program) :
  (rules nonterminal).isInner
  := by
  cases nonterminal with
  | program => exact absurd rfl h
  | _ => rfl

/-- The end of the input is no part of what a program is made of. -/
theorem Derives.not_mem_end {rule : Rule} {tokens : List TokenKind} (h : Derives rule tokens)
    (hinner : rule.isInner) :
  .endOfInput ∉ tokens
  := by
  induction h with
  | empty => apply List.not_mem_nil
  | token h =>
    rw [List.mem_singleton]
    rintro rfl
    cases h
    cases hinner
  | @ref nonterminal tokens h ih =>
    apply ih
    apply isInner_rules
    rintro rfl
    cases hinner
  | sequence h h' ih ih' =>
    obtain ⟨hfirst, hsecond⟩ := Bool.and_eq_true_iff.mp hinner
    rw [List.mem_append, not_or]
    exact ⟨ih hfirst, ih' hsecond⟩
  | left h ih => apply ih (Bool.and_eq_true_iff.mp hinner).1
  | right h ih => apply ih (Bool.and_eq_true_iff.mp hinner).2
  | done => apply List.not_mem_nil
  | again h h' ih ih' =>
    rw [List.mem_append, not_or]
    exact ⟨ih hinner, ih' hinner⟩

/-- The end of the input stands at the end of a program, and only there. -/
theorem Derives.eq_append_end {tokens : List TokenKind} (h : Derives (.ref .program) tokens) :
  ∃ body, tokens = body ++ [.endOfInput] ∧ .endOfInput ∉ body
  := by
  cases h with | ref hrule =>
  cases hrule with | @sequence _ _ first _ hfirst hrest =>
  cases hrest with | @sequence _ _ others _ hothers hend =>
  cases hend with | token hkind =>
  cases hkind
  use first ++ others, (List.append_assoc _ _ _).symm
  rw [List.mem_append, not_or]
  exact ⟨hfirst.not_mem_end rfl, hothers.not_mem_end rfl⟩

/-- A program that begins with the tokens ends with the last of them, or goes on up to its end. -/
theorem Viable.ends {used : List TokenKind} {kind : TokenKind} (h : Viable (used ++ [kind])) :
  kind = .endOfInput ∧ Derives (.ref .program) (used ++ [.endOfInput])
    ∨ ∃ others, Derives (.ref .program) ((used ++ kind :: others) ++ [.endOfInput])
      ∧ .endOfInput ∉ used ++ kind :: others
  := by
  obtain ⟨more, hmore⟩ := h
  obtain ⟨body, hbody, hend⟩ := hmore.eq_append_end
  rw [hbody] at hmore
  rcases List.eq_nil_or_concat more with rfl | ⟨others, last, rfl⟩
  · rw [List.append_nil] at hbody
    obtain ⟨rfl, hkind⟩ := List.append_inj' hbody rfl
    exact .inl ⟨List.singleton_inj.mp hkind, hmore⟩
  · rw [List.concat_eq_append, ← List.append_assoc] at hbody
    obtain ⟨rfl, -⟩ := List.append_inj' hbody rfl
    rw [List.append_assoc used, List.singleton_append] at hmore hend
    exact .inr ⟨others, hmore, hend⟩

end Grammar

namespace Parse

open Grammar

/-! ### Programs that go on -/

/-- The reading of a program gets to its end. -/
theorem predicts_of_derives {body : List TokenKind}
    (h : Derives (.ref .program) (body ++ [.endOfInput])) (hend : .endOfInput ∉ body) :
  Predicts (.ref .program) body (.stuck [])
  := by
  have hknown := known_functionNames body
  obtain ⟨p, hp⟩ := (program_ok_iff hknown).mpr h
  have hhalts := program_halts hknown hend
  rwa [hp] at hhalts

/-- No program goes on with the token where the reading is stuck. -/
theorem not_viable_of_stuck {used after : List TokenKind} {kind : TokenKind}
    (h : Predicts (.ref .program) (used ++ kind :: after) (.stuck (kind :: after)))
    (hkind : kind ≠ .endOfInput) :
  ¬ Viable (used ++ [kind])
  := by
  intro hviable
  rcases hviable.ends with ⟨hend, -⟩ | ⟨others, hothers, hend⟩
  · exact hkind hend
  · -- up to the token the readings are the same, but one of them gets past it
    have hpast := predicts_of_derives hothers hend
    have hstuck := h.exchange others rfl (List.nil_append _).symm
    cases hstuck.unique hpast

/-- The parser fails in front of a token before which a program begins, and after which none does.
Behind the last token that is the end of the input. -/
theorem program_error_misfit {funcs : SymbolTable} {tokens : List TokenKind} {mismatch : Mismatch}
    (hknown : ∀ kind ∈ tokens, Known funcs kind) (hend : .endOfInput ∉ tokens)
    (h : program funcs tokens = .error mismatch) :
  mismatch.Points
    ∧ ∃ used, tokens = used ++ mismatch.rest ∧ Viable used
      ∧ ¬ Viable (used ++ [mismatch.rest.headD .endOfInput])
  := by
  have hhalts := program_halts hknown hend
  rw [h] at hhalts
  obtain ⟨hpoints, hstuck⟩ := hhalts
  obtain ⟨used, more, htokens, hmore⟩ := hstuck.viable
  use hpoints, used, htokens, ⟨more, hmore⟩
  subst htokens
  cases hrest : mismatch.rest with
  | nil =>
    rw [hrest, List.append_nil] at h hend hknown
    intro hviable
    rcases hviable.ends with ⟨-, hprogram⟩ | ⟨others, -, hnone⟩
    · obtain ⟨p, hp⟩ := (program_ok_iff hknown).mpr hprogram
      rw [h] at hp
      cases hp
    · apply hnone
      apply List.mem_append_right _ List.mem_cons_self
  | cons first rest =>
    rw [hrest] at hstuck hend
    apply not_viable_of_stuck hstuck
    rintro rfl
    apply hend
    apply List.mem_append_right _ List.mem_cons_self

end Parse

/-! ### Where the error points -/

/-- The token at a position, which behind the last one is the end of the input. -/
def Token.foundAt (tokens : List Token) (position : Nat) : Token :=
  tokens[position]?.getD (endAfter tokens)

/-- The error says where the token stands and what it is. -/
def SyntaxError.IsAbout (error : SyntaxError) (found : Token) : Prop :=
  (∃ expected, error = .unexpected expected found.kind found.span)
    ∨ ∃ op, found.kind = .binary (.comparison op) ∧ error = .chainedComparison op found.span

namespace Parse

open Grammar

/-- The tokens that are read, up to a position. -/
theorem take_takeWhile {tokens : List Token} {position : Nat}
    (h : position ≤ (tokens.takeWhile (·.kind != .endOfInput)).length) :
  (tokens.takeWhile (·.kind != .endOfInput)).take position = tokens.take position
  := by
  obtain ⟨after, hafter⟩ := List.takeWhile_prefix (·.kind != .endOfInput) (l := tokens)
  conv_rhs => rw [← hafter]
  rw [List.take_append_of_le_length h]

/-- The token at a position is the first of those that are read behind it, if there is one. -/
theorem kind_foundAt {tokens : List Token} {position : Nat}
    (h : position ≤ (tokens.takeWhile (·.kind != .endOfInput)).length) :
  (((tokens.takeWhile (·.kind != .endOfInput)).map (·.kind)).drop position).headD .endOfInput
    = (Token.foundAt tokens position).kind
  := by
  have hstop : (Token.endAfter tokens).kind = .endOfInput := rfl
  unfold Token.foundAt
  generalize Token.endAfter tokens = stop at hstop
  induction tokens generalizing position with
  | nil => simp [hstop]
  | cons token tokens ih =>
    by_cases hkind : token.kind = .endOfInput
    · obtain rfl : position = 0 := by simpa [hkind] using h
      simp [hkind]
    · have hread : (token.kind != .endOfInput) = true := by simp [hkind]
      rw [List.takeWhile_cons, if_pos hread] at h ⊢
      cases position with
      | zero => simp
      | succ position =>
        rw [List.map_cons, List.drop_succ_cons, List.getElem?_cons_succ]
        exact ih (Nat.le_of_succ_le_succ h)

/-- The error that a mismatch means is about the token behind those that were used. -/
theorem Mismatch.isAbout_toError {tokens : List Token} {mismatch : Mismatch}
    {used : List TokenKind} (hpoints : mismatch.Points)
    (hread : (tokens.takeWhile (·.kind != .endOfInput)).map (·.kind) = used ++ mismatch.rest) :
  (mismatch.toError tokens).IsAbout (Token.foundAt tokens used.length)
    ∧ (Token.foundAt tokens used.length).kind = mismatch.rest.headD .endOfInput
  := by
  have hlength := congrArg List.length hread
  rw [List.length_map, List.length_append] at hlength
  have hkind : (Token.foundAt tokens used.length).kind = mismatch.rest.headD .endOfInput := by
    rw [← kind_foundAt (by omega), hread, List.drop_left]
  have hposition : (tokens.takeWhile (·.kind != .endOfInput)).length - mismatch.rest.length
      = used.length := by omega
  constructor
  · unfold Mismatch.toError SyntaxError.IsAbout
    dsimp only
    rw [hposition]
    split
    · exact .inl ⟨_, rfl⟩
    · rename_i op hcomplaint
      obtain ⟨rest, hrest⟩ := hpoints op hcomplaint
      rw [hrest] at hkind
      exact .inr ⟨op, hkind, rfl⟩
  · exact hkind

end Parse

open Grammar in
/-- If the parsing of tokens whose function names are known fails, then the error points at the
first token that does not fit: some program begins with the tokens before it, and none with these
and the token itself. -/
theorem parseTokens_error_firstMisfit (tokens : List Token) (entry : String) (start : Tree)
    (hknown : ∀ token ∈ tokens, ∀ name, token.kind = .function name → name ∈ start.funcs.names)
    (error : CompileError) (h : (parseTokens tokens entry start).result = .error error) :
  ∃ position ≤ tokens.length,
    (∃ e : SyntaxError, error = .parse e ∧ e.IsAbout (Token.foundAt tokens position))
      ∧ Viable ((tokens.take position).map (·.kind))
      ∧ ¬ Viable ((tokens.take position).map (·.kind) ++ [(Token.foundAt tokens position).kind])
  := by
  have hkinds : ∀ kind ∈ (tokens.takeWhile (·.kind != .endOfInput)).map (·.kind),
      Parse.Known start.funcs kind := by
    intro kind hkind
    obtain ⟨token, htoken, rfl⟩ := List.mem_map.mp hkind
    apply hknown token ((List.takeWhile_sublist _).subset htoken)
  have hend : .endOfInput ∉ (tokens.takeWhile (·.kind != .endOfInput)).map (·.kind) := by
    intro hmem
    obtain ⟨token, htoken, hkind⟩ := List.mem_map.mp hmem
    simpa [hkind] using List.all_eq_true.mp List.all_takeWhile token htoken
  rw [result_parseTokens, Program.ofTokens_eq] at h
  cases hprogram : Parse.program start.funcs
      ((tokens.takeWhile (·.kind != .endOfInput)).map (·.kind)) with
  | ok p =>
    rw [hprogram] at h
    cases h
  | error mismatch =>
    rw [hprogram] at h
    cases h
    obtain ⟨hpoints, used, hread, hviable, hnot⟩ :=
      Parse.program_error_misfit hkinds hend hprogram
    obtain ⟨habout, hkind⟩ := mismatch.isAbout_toError hpoints hread
    have hle : used.length ≤ (tokens.takeWhile (·.kind != .endOfInput)).length := by
      rw [← List.length_map Token.kind, hread, List.length_append]
      apply Nat.le_add_right
    have hused : (tokens.take used.length).map (·.kind) = used := by
      rw [← Parse.take_takeWhile hle, List.map_take, hread, List.take_left]
    have hlength := Nat.le_trans hle (List.takeWhile_sublist _).length_le
    use used.length, hlength, ⟨_, rfl, habout⟩
    rw [hused, hkind]
    exact ⟨hviable, hnot⟩

/-- A function whose only statement does not end. -/
def unseparated : List Token :=
  ([.mark .define, .function "main", .mark .openBrace, .unary (.output .out), .variable "x",
    .binary (.comparison .lt), .number (.ofNat 1), .mark .closeBrace] :
    List TokenKind).zipIdx.map fun (kind, start) => { kind, span := ⟨start, start + 1⟩ }

open Grammar in
theorem parseTokens_error_unseparated :
  (∀ token ∈ unseparated, ∀ name, token.kind = .function name → name ∈ ["main"])
    ∧ (parseTokens unseparated "main" { funcs := ⟨["main"]⟩ }).result
      = .error (.parse (.unexpected (.mark .separator) (.binary (.comparison .lt)) ⟨5, 6⟩))
    ∧ Viable ((unseparated.take 5).map (·.kind)) ∧ ¬ Viable ((unseparated.take 6).map (·.kind))
  := by
  have hknown : ∀ token ∈ unseparated, ∀ name, token.kind = .function name → name ∈ ["main"] := by
    simp [unseparated]
  use hknown, rfl
  obtain ⟨position, hle, ⟨e, he, habout⟩, hviable, hnot⟩ :=
    parseTokens_error_firstMisfit unseparated "main" { funcs := ⟨["main"]⟩ } hknown _ rfl
  cases he
  have hspan : (Token.foundAt unseparated position).span = ⟨5, 6⟩ := by
    rcases habout with ⟨expected, heq⟩ | ⟨op, -, heq⟩
    · injection heq with _ _ hspan
      exact hspan.symm
    · cases heq
  have hposition : ∀ position ≤ 8,
      (Token.foundAt unseparated position).span = ⟨5, 6⟩ → position = 5 := by decide
  obtain rfl := hposition position hle hspan
  exact ⟨hviable, hnot⟩

end StackCompiler
