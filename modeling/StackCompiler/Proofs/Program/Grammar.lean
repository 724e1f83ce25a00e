import StackCompiler.Proofs.Program.Tokens

/-!
# The grammar of programs

The grammar as data: the rule of each nonterminal, and the token lists that are derived from a rule.
A parser that reads a part of its tokens is described by the rule from which that part is derived
(`Yields`).

To show something about all token lists that are derived from a nonterminal, it suffices to find
languages for the nonterminals that are closed under their rules (`Derives.inLanguage`).
-/

namespace StackCompiler

namespace Grammar

/-- The classes of tokens that the grammar tells apart. -/
inductive Terminal where
  | mark (mark : Mark)
  | functionName
  | variable
  | number
  | assign
  | branch
  | loop
  | ret
  | output
  | input
  | math
  | comparison
  | additive
  | multiplicative
deriving DecidableEq, Repr

/-- The token is one of the class. -/
inductive Terminal.Matches : Terminal → TokenKind → Prop where
  | mark (mark : Mark) : Matches (.mark mark) (.mark mark)
  | functionName (name : String) : Matches .functionName (.function name)
  | variable (name : String) : Matches .variable (.variable name)
  | number (value : Binary64) : Matches .number (.number value)
  | assign : Matches .assign (.binary .assign)
  | branch : Matches .branch (.control .branch)
  | loop : Matches .loop (.control .loop)
  | ret : Matches .ret (.unary .ret)
  | output (op : OutputOp) : Matches .output (.unary (.output op))
  | input : Matches .input (.unary .input)
  | math (op : MathOp) : Matches .math (.unary (.math op))
  | comparison (op : Comparison) : Matches .comparison (.binary (.comparison op))
  | additive {op : ArithmeticOp} (h : op.isAdditive) :
      Matches .additive (.binary (.arithmetic op))
  | multiplicative {op : ArithmeticOp} (h : op.isMultiplicative) :
      Matches .multiplicative (.binary (.arithmetic op))

/-- What the grammar has rules for. -/
inductive Nonterminal where
  | program
  | function
  | parameters
  | body
  | statement
  | assign
  | branch
  | loop
  | call
  | arguments
  | ret
  | output
  | input
  | comparison
  | expression
  | term
  | primary
  | value
deriving DecidableEq, Repr

/-- The right side of a rule. -/
inductive Rule where
  | empty
  | token (terminal : Terminal)
  | ref (nonterminal : Nonterminal)
  | sequence (first second : Rule)
  | choice (first second : Rule)
  | repeated (rule : Rule)

namespace Rule

/-- All of the rules, one after the other. -/
def all : List Rule → Rule
  | [] => empty
  | [rule] => rule
  | rule :: rules => sequence rule (all rules)

/-- One of the rules. -/
def any : Rule → List Rule → Rule
  | rule, [] => rule
  | rule, other :: rules => choice rule (any other rules)

/-- The rule or nothing. -/
def optional (rule : Rule) : Rule :=
  choice rule empty

/-- The rule, and again after each comma. -/
def listed (rule : Rule) : Rule :=
  sequence rule (repeated (sequence (token (.mark .comma)) rule))

/-- Possibly a list, between the marks of arguments. -/
def enclosed (rule : Rule) : Rule :=
  all [token (.mark .argumentsBegin), optional (listed rule), token (.mark .argumentsEnd)]

end Rule

open Rule in
/-- The rules of the grammar. -/
def rules : Nonterminal → Rule
  | .program => all [ref .function, repeated (ref .function), token (.mark .endOfInput)]
  | .function =>
    all [token (.mark .define), token .functionName, optional (ref .parameters), ref .body]
  | .parameters => enclosed (token .variable)
  | .body => all [token (.mark .openBrace), repeated (ref .statement), token (.mark .closeBrace)]
  | .statement =>
    sequence
      (any (ref .assign)
        [ref .branch, ref .loop, ref .call, ref .ret, ref .output, ref .input])
      (token (.mark .separator))
  | .assign => all [token .assign, token .variable, token (.mark .assignEnd), ref .comparison]
  | .branch => all [token .branch, ref .primary, ref .body, optional (ref .body)]
  | .loop => all [token .loop, ref .primary, ref .body]
  | .call => sequence (token .functionName) (optional (ref .arguments))
  | .arguments => enclosed (ref .expression)
  | .ret => sequence (token .ret) (ref .comparison)
  | .output => sequence (token .output) (ref .expression)
  | .input => sequence (token .input) (token .variable)
  | .comparison =>
    sequence (ref .expression) (optional (sequence (token .comparison) (ref .expression)))
  | .expression => sequence (ref .term) (repeated (sequence (token .additive) (ref .term)))
  | .term => sequence (ref .primary) (repeated (sequence (token .multiplicative) (ref .primary)))
  | .primary =>
    any (all [token (.mark .openParen), ref .comparison, token (.mark .closeParen)])
      [sequence (token .math) (ref .expression), ref .input, ref .value]
  | .value => any (token .number) [token .variable, ref .call]

/-- The token list is derived from the rule. -/
inductive Derives : Rule → List TokenKind → Prop where
  | empty : Derives .empty []
  | token {terminal : Terminal} {kind : TokenKind} (h : terminal.Matches kind) :
      Derives (.token terminal) [kind]
  | ref {nonterminal : Nonterminal} {tokens : List TokenKind}
      (h : Derives (rules nonterminal) tokens) :
      Derives (.ref nonterminal) tokens
  | sequence {first second : Rule} {tokens tokens' : List TokenKind} (h : Derives first tokens)
      (h' : Derives second tokens') :
      Derives (.sequence first second) (tokens ++ tokens')
  | left {first second : Rule} {tokens : List TokenKind} (h : Derives first tokens) :
      Derives (.choice first second) tokens
  | right {first second : Rule} {tokens : List TokenKind} (h : Derives second tokens) :
      Derives (.choice first second) tokens
  | done {rule : Rule} : Derives (.repeated rule) []
  | again {rule : Rule} {tokens tokens' : List TokenKind} (h : Derives rule tokens)
      (h' : Derives (.repeated rule) tokens') :
      Derives (.repeated rule) (tokens ++ tokens')

/-! ### Languages -/

/-- The token lists of a rule over known tokens, given those of the nonterminals. -/
def Rule.Language (Known : TokenKind → Prop) (Spec : Nonterminal → List TokenKind → Prop) :
    Rule → List TokenKind → Prop
  | empty, tokens => tokens = []
  | token terminal, tokens => ∃ kind, tokens = [kind] ∧ terminal.Matches kind ∧ Known kind
  | ref nonterminal, tokens => Spec nonterminal tokens
  | sequence first second, tokens =>
    ∃ left right, tokens = left ++ right ∧ first.Language Known Spec left
      ∧ second.Language Known Spec right
  | choice first second, tokens =>
    first.Language Known Spec tokens ∨ second.Language Known Spec tokens
  | repeated rule, tokens =>
    ∃ parts : List (List TokenKind), tokens = parts.flatten
      ∧ ∀ part ∈ parts, rule.Language Known Spec part

/-- What is derived is in any languages that are closed under the rules. -/
theorem Derives.inLanguage {Known : TokenKind → Prop}
    {Spec : Nonterminal → List TokenKind → Prop}
    (hclosed : ∀ nonterminal tokens, (rules nonterminal).Language Known Spec tokens →
      Spec nonterminal tokens)
    {rule : Rule} {tokens : List TokenKind} (h : Derives rule tokens)
    (hknown : ∀ kind ∈ tokens, Known kind) :
  rule.Language Known Spec tokens
  := by
  induction h with
  | empty => rfl
  | token h => exact ⟨_, rfl, h, hknown _ List.mem_cons_self⟩
  | ref h ih => apply hclosed _ _ (ih hknown)
  | sequence h h' ih ih' =>
    obtain ⟨hleft, hright⟩ := List.forall_mem_append.mp hknown
    exact ⟨_, _, rfl, ih hleft, ih' hright⟩
  | left h ih => exact .inl (ih hknown)
  | right h ih => exact .inr (ih hknown)
  | done => exact ⟨[], rfl, List.forall_mem_nil _⟩
  | again h h' ih ih' =>
    obtain ⟨hleft, hright⟩ := List.forall_mem_append.mp hknown
    obtain ⟨parts, rfl, hparts⟩ := ih' hright
    exact ⟨_ :: parts, rfl, List.forall_mem_cons.mpr ⟨ih hleft, hparts⟩⟩

/-! ### Derivations of what is read -/

/-- The tokens up to `rest` are derived from the rule. -/
def Yields (rule : Rule) (tokens rest : List TokenKind) : Prop :=
  ∃ used, tokens = used ++ rest ∧ Derives rule used

namespace Yields

variable {rule first second : Rule} {tokens middle rest : List TokenKind}

theorem empty (tokens : List TokenKind) :
  Yields .empty tokens tokens
  := ⟨[], rfl, .empty⟩

theorem token {terminal : Terminal} {kind : TokenKind} (h : terminal.Matches kind) :
  Yields (.token terminal) (kind :: rest) rest
  := ⟨[kind], rfl, .token h⟩

theorem mark (mark : Mark) (rest : List TokenKind) :
  Yields (.token (.mark mark)) (.mark mark :: rest) rest
  := .token (.mark mark)

/-- What is derived from the rule of a nonterminal is derived from the nonterminal. -/
theorem ref {nonterminal : Nonterminal} (h : Yields (rules nonterminal) tokens rest) :
  Yields (.ref nonterminal) tokens rest
  := by
  obtain ⟨used, rfl, hused⟩ := h
  exact ⟨used, rfl, .ref hused⟩

/-- What is derived from one rule comes before what is derived from the next one. -/
theorem sequence (h : Yields first tokens middle) (h' : Yields second middle rest) :
  Yields (.sequence first second) tokens rest
  := by
  obtain ⟨used, rfl, hused⟩ := h
  obtain ⟨used', rfl, hused'⟩ := h'
  exact ⟨used ++ used', (List.append_assoc _ _ _).symm, .sequence hused hused'⟩

/-- What is derived from the first alternative is derived from the choice. -/
theorem left (h : Yields first tokens rest) :
  Yields (.choice first second) tokens rest
  := by
  obtain ⟨used, rfl, hused⟩ := h
  exact ⟨used, rfl, .left hused⟩

/-- What is derived from the second alternative is derived from the choice. -/
theorem right (h : Yields second tokens rest) :
  Yields (.choice first second) tokens rest
  := by
  obtain ⟨used, rfl, hused⟩ := h
  exact ⟨used, rfl, .right hused⟩

/-- What is optional may be left out. -/
theorem absent (rule : Rule) (tokens : List TokenKind) :
  Yields (.optional rule) tokens tokens
  := right (empty tokens)

theorem done (rule : Rule) (tokens : List TokenKind) :
  Yields (.repeated rule) tokens tokens
  := ⟨[], rfl, .done⟩

/-- What is repeated may come once more. -/
theorem again (h : Yields rule tokens middle) (h' : Yields (.repeated rule) middle rest) :
  Yields (.repeated rule) tokens rest
  := by
  obtain ⟨used, rfl, hused⟩ := h
  obtain ⟨used', rfl, hused'⟩ := h'
  exact ⟨used ++ used', (List.append_assoc _ _ _).symm, .again hused hused'⟩

/-- The marks of arguments with nothing between them. -/
theorem enclosed_empty (rule : Rule) (rest : List TokenKind) :
  Yields (.enclosed rule) (.mark .argumentsBegin :: .mark .argumentsEnd :: rest) rest
  := .sequence (.mark .argumentsBegin _) (.sequence (.absent _ _) (.mark .argumentsEnd rest))

/-- A list between the marks of arguments. -/
theorem enclosed (h : Yields rule tokens middle)
    (h' : Yields (.repeated (.sequence (.token (.mark .comma)) rule)) middle
      (.mark .argumentsEnd :: rest)) :
  Yields (.enclosed rule) (.mark .argumentsBegin :: tokens) rest
  := by
  apply (Yields.mark .argumentsBegin tokens).sequence
  exact (left (h.sequence h')).sequence (.mark .argumentsEnd rest)

end Yields

end Grammar

end StackCompiler
