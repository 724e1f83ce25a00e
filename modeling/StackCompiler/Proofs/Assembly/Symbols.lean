import StackCompiler.Proofs.Assembly.Calls
import StackCompiler.Proofs.Compile.Sources

/-!
# Symbols and their instructions

Every operator, number and call of a program becomes one instruction, and so does the zero with
which a condition is compared.  All other lines move values between the stack and the variables, or
control.  Nothing is lost on the way from the source to the assembly, and nothing stands there
twice.
-/

namespace StackCompiler

/-- Whether an instruction comes from a symbol of the program: the others move values between the
stack and the variables, or control. -/
def Instruction.isSpelled : Instruction → Bool
  | .load _ | .store _ | .pushResult | .jump _ | .jumpIfEqual _ | .ret | .halt => false
  | _ => true

/-- The instruction of a line if it comes from a symbol of the program. -/
def Line.spelled? : Line → Option Instruction
  | .instruction i => if i.isSpelled then some i else none
  | .label _ => none

/-- The instructions that come from symbols of the program. -/
def spelled (code : List Line) : List Instruction :=
  code.filterMap Line.spelled?

/-- The instruction that a symbol becomes. -/
def TokenKind.instruction? (funcs : SymbolTable) (entry : Nat) : TokenKind → Option Instruction
  | .binary (.arithmetic op) => some (.arithmetic op)
  | .binary (.comparison op) => some (.comparison op)
  | .binary .assign => none
  | .unary (.math op) => some (.math op)
  | .unary (.output op) => some (.output op)
  | .unary .input => some .input
  | .unary .ret => some .popResult
  | .control _ => some (.push (.ofNat 0))
  | .number value => some (.push value)
  | .function name => some (.call (Lower.target entry (funcs.intern name).1))
  | .mark _ | .variable _ => none

/-- What one piece of code spells comes before what the next one spells. -/
theorem spelled_append (code code' : List Line) :
  spelled (code ++ code') = spelled code ++ spelled code'
  := List.filterMap_append

theorem spelled_label (label : Label) (code : List Line) :
  spelled (.label label :: code) = spelled code
  := rfl

theorem spelled_instruction {i : Instruction} (h : i.isSpelled = false) (code : List Line) :
  spelled (.instruction i :: code) = spelled code
  := by
  rw [spelled, List.filterMap_cons, Line.spelled?, h, if_neg Bool.false_ne_true, spelled]

/-- Nothing of the program is spelled by lines that only move values. -/
theorem spelled_map_eq_nil {α : Type} {f : α → Instruction} (h : ∀ a, (f a).isSpelled = false)
    (list : List α) :
  spelled (list.map fun a => .instruction (f a)) = []
  := by
  rw [spelled, List.filterMap_map, List.filterMap_eq_nil_iff]
  intro a _
  rw [Function.comp_apply, Line.spelled?, h, if_neg Bool.false_ne_true]

/-- A call spells its function behind its arguments. -/
theorem spelled_call (entry index : Nat) (saved : List Nat) (arguments : List Line) :
  spelled (Lower.call entry index saved arguments)
    = spelled arguments ++ [.call (Lower.target entry index)]
  := by
  have hsaved := spelled_map_eq_nil (f := .load) (fun _ => rfl) saved
  have hrestored := spelled_map_eq_nil (f := .store) (fun _ => rfl) saved.reverse
  rw [Lower.call, spelled_append, spelled_append, hsaved, List.nil_append]
  exact congrArg (spelled arguments ++ _ :: ·) hrestored

/-- A branch spells a zero besides its parts, to compare the condition with. -/
theorem spelled_branch (number : Nat) (condition consequence alternative : List Line) :
  spelled (Lower.branch number condition consequence alternative)
    = spelled condition ++ .push (.ofNat 0) :: (spelled consequence ++ spelled alternative)
  := by
  rw [Lower.branch, spelled_append, spelled_append, spelled_append, List.append_assoc]
  have hlast : spelled [.label (.branchTrue number)] = [] := rfl
  rw [hlast, List.append_nil, List.append_assoc]
  rfl

/-- A loop spells a zero besides its parts, to compare the condition with. -/
theorem spelled_loop (number : Nat) (condition body : List Line) :
  spelled (Lower.loop number condition body)
    = spelled condition ++ .push (.ofNat 0) :: spelled body
  := by
  have hlast : spelled [.instruction (.jump (.loopTrue number)), .label (.loopFalse number)] = [] :=
    rfl
  rw [Lower.loop, spelled_append, hlast, List.append_nil, spelled_append]
  rfl

/-! ### The symbols of a program -/

/-- An instruction comes after those of its operands, and its symbol may come before. -/
theorem perm_operator_last {instructions symbols : List Instruction} (h : instructions.Perm symbols)
    (i : Instruction) :
  (instructions ++ [i]).Perm (i :: symbols)
  := (h.append_right _).trans (List.perm_append_singleton i symbols)

section Symbols

variable {vars funcs : SymbolTable} {entry : Nat}

mutual

/-- The instructions of an expression are those of its symbols. -/
theorem Expr.spelled_perm :
  ∀ (e : Expr), (spelled (e.code vars funcs entry)).Perm
    (e.symbols.filterMap (TokenKind.instruction? funcs entry))
  | .number _ => .refl _
  | .variable _ => .refl _
  | .input _ => .refl _
  | .call _ arguments => by
      rw [Expr.code, spelled_append, spelled_call, List.append_assoc]
      apply perm_operator_last (Expr.spelled_codes_perm arguments)
  | .math _ operand => by
      rw [Expr.code, spelled_append]
      apply perm_operator_last operand.spelled_perm
  | .arithmetic _ left right => by
      rw [Expr.code, spelled_append, spelled_append, Expr.symbols, List.filterMap_append,
        List.append_assoc]
      apply left.spelled_perm.append (perm_operator_last right.spelled_perm _)
  | .comparison _ left right => by
      rw [Expr.code, spelled_append, spelled_append, Expr.symbols, List.filterMap_append,
        List.append_assoc]
      apply left.spelled_perm.append (perm_operator_last right.spelled_perm _)

/-- The code of expressions spells their symbols, each as often as it occurs. -/
theorem Expr.spelled_codes_perm :
  ∀ (es : List Expr), (spelled (Expr.codes vars funcs entry es)).Perm
    ((Expr.symbolsOfAll es).filterMap (TokenKind.instruction? funcs entry))
  | [] => .refl _
  | e :: es => by
      rw [Expr.codes, spelled_append, Expr.symbolsOfAll, List.filterMap_append]
      apply e.spelled_perm.append (Expr.spelled_codes_perm es)

end

mutual

/-- The instructions of a statement are those of its symbols. -/
theorem Statement.spelled_perm :
  ∀ (s : Statement) (numbering : Numbering),
    (spelled (s.code vars funcs entry numbering).1).Perm
      (s.symbols.filterMap (TokenKind.instruction? funcs entry))
  | .assign target value, _ => by
      have hstore : spelled [.instruction (.store (variableSlot vars target))] = [] := rfl
      rw [Statement.code, spelled_append, hstore, List.append_nil]
      exact value.spelled_perm
  | .branch condition consequence alternative, _ => by
      rw [Statement.code, spelled_branch, Statement.symbols]
      apply List.perm_middle.trans
      apply List.Perm.cons
      rw [List.filterMap_append, List.filterMap_append]
      apply condition.spelled_perm.append
      apply (Statement.spelled_codes_perm consequence _).append
        (Statement.spelled_codes_perm alternative _)
  | .loop condition body, _ => by
      rw [Statement.code, spelled_loop, Statement.symbols]
      apply List.perm_middle.trans
      apply List.Perm.cons
      rw [List.filterMap_append]
      apply condition.spelled_perm.append (Statement.spelled_codes_perm body _)
  | .call _ arguments, _ => by
      rw [Statement.code, spelled_call]
      apply perm_operator_last (Expr.spelled_codes_perm arguments)
  | .ret value, _ => by
      rw [Statement.code, spelled_append]
      apply perm_operator_last value.spelled_perm
  | .output _ value, _ => by
      rw [Statement.code, spelled_append]
      apply perm_operator_last value.spelled_perm
  | .input _, _ => .refl _

/-- The code of statements spells their symbols, each as often as it occurs. -/
theorem Statement.spelled_codes_perm :
  ∀ (ss : List Statement) (numbering : Numbering),
    (spelled (Statement.codes vars funcs entry ss numbering).1).Perm
      ((Statement.symbolsOfAll ss).filterMap (TokenKind.instruction? funcs entry))
  | [], _ => .refl _
  | s :: ss, _ => by
      rw [Statement.codes, spelled_append, Statement.symbolsOfAll, List.filterMap_append]
      apply (s.spelled_perm _).append (Statement.spelled_codes_perm ss _)

end

/-- Of a function only the body is spelled. -/
theorem Definition.filterMap_symbols (d : Definition) :
  d.symbols.filterMap (TokenKind.instruction? funcs entry)
    = (Statement.symbolsOfAll d.body).filterMap (TokenKind.instruction? funcs entry)
  := by
  have hparameters : (d.parameters.map TokenKind.variable).filterMap
      (TokenKind.instruction? funcs entry) = [] := by
    rw [List.filterMap_map, List.filterMap_eq_nil_iff]
    exact fun _ _ => rfl
  rw [Definition.symbols, List.filterMap_append, hparameters, List.nil_append]

/-- The code of a function spells its symbols, each as often as it occurs. -/
theorem Definition.spelled_perm (d : Definition) (numbering : Numbering) :
  (spelled (d.code vars funcs entry numbering).1).Perm
    (d.symbols.filterMap (TokenKind.instruction? funcs entry))
  := by
  have hstores := spelled_map_eq_nil (f := .store) (fun _ => rfl)
    (d.parameters.map (variableSlot vars)).reverse
  have hending : spelled (if Statement.endsWithReturn d.body then [] else [.instruction .ret])
      = [] := by
    split <;> rfl
  rw [Definition.code, spelled_append, spelled_append, spelled_label, hstores, hending,
    List.append_nil, d.filterMap_symbols]
  apply Statement.spelled_codes_perm

/-- The code of functions spells their symbols, each as often as it occurs. -/
theorem Definition.spelled_codes_perm (ds : List Definition) (numbering : Numbering) :
  (spelled (Definition.codes vars funcs entry ds numbering).1).Perm
    ((ds.flatMap (·.symbols)).filterMap (TokenKind.instruction? funcs entry))
  := by
  induction ds generalizing numbering with
  | nil => apply List.Perm.refl
  | cons d ds ih =>
    rw [Definition.codes, spelled_append, List.flatMap_cons, List.filterMap_append]
    apply (d.spelled_perm numbering).append (ih _)

/-- The instructions of a program are those of its symbols. -/
theorem Definition.spelled_programCode_perm (first : Definition) (others : List Definition)
    (numbering : Numbering) :
  (spelled (Definition.programCode vars funcs first others numbering).1).Perm
    (((first :: others).flatMap (·.symbols)).filterMap
      (TokenKind.instruction? funcs (funcs.intern first.name).1))
  := by
  have hlast : spelled [.instruction .halt] = [] := rfl
  rw [Definition.programCode, spelled_append, hlast, List.append_nil, spelled_append,
    spelled_instruction rfl, spelled_label, List.flatMap_cons, List.filterMap_append,
    first.filterMap_symbols]
  apply List.perm_append_comm.trans
  apply (Statement.spelled_codes_perm first.body _).append
    (Definition.spelled_codes_perm others numbering)

end Symbols

/-- The instructions of a program are those of the symbols of its source. -/
theorem Program.spelled_perm {program : Program} {entry : String} {first : Definition}
    {others : List Definition} (h : program.entryFirst entry = first :: others)
    (vars funcs : SymbolTable) (numbering : Numbering) :
  (spelled (Definition.programCode vars funcs first others numbering).1).Perm
    ((program.definitions.flatMap (·.symbols)).filterMap
      (TokenKind.instruction? funcs (funcs.intern first.name).1))
  := by
  have hperm := program.entryFirst_perm entry
  rw [h] at hperm
  apply (Definition.spelled_programCode_perm first others numbering).trans
  apply (hperm.flatMap_right _).filterMap

/-! ### Counts -/

/-- The label that an instruction calls. -/
def Instruction.callTarget? : Instruction → Option Label
  | .call target => some target
  | _ => none

/-- Whether an instruction pushes a literal. -/
def Instruction.isPush : Instruction → Bool
  | .push _ => true
  | _ => false

/-- Whether a line pushes a literal. -/
def Line.isPush : Line → Bool
  | .instruction i => i.isPush
  | .label _ => false

/-- Whether a token is a number. -/
def TokenKind.isNumber : TokenKind → Bool
  | .number _ => true
  | _ => false

/-- A line spells an instruction if and only if it is that instruction. -/
theorem Line.spelled?_eq_some_iff {i : Instruction} (h : i.isSpelled) {line : Line} :
  line.spelled? = some i ↔ line = .instruction i
  := by
  cases line with
  | label label => simp [spelled?]
  | instruction j =>
    simp only [spelled?, Option.ite_none_right_eq_some, Option.some.injEq, Line.instruction.injEq,
      and_iff_right_iff_imp]
    rintro rfl
    apply h

/-- What is spelled is counted among the lines. -/
theorem count_spelled {i : Instruction} (h : i.isSpelled) (code : List Line) :
  (spelled code).count i = code.count (.instruction i)
  := by
  rw [spelled, List.count_filterMap]
  apply List.countP_congr
  intro line _
  rw [beq_iff_eq, beq_iff_eq, Line.spelled?_eq_some_iff h]

/-- All pushes are spelled. -/
theorem countP_isPush_spelled (code : List Line) :
  (spelled code).countP Instruction.isPush = code.countP Line.isPush
  := by
  rw [spelled, List.countP_filterMap]
  apply List.countP_congr
  rintro (i | _) -
  · cases i <;> exact Iff.rfl
  · exact Iff.rfl

/-- All calls are spelled. -/
theorem filterMap_callTarget?_spelled (code : List Line) :
  (spelled code).filterMap Instruction.callTarget? = callTargets code
  := by
  rw [spelled, List.filterMap_filterMap]
  apply List.filterMap_congr
  rintro (i | _) -
  · cases i <;> rfl
  · rfl

/-- The operator that an instruction computes. -/
def Instruction.operator? : Instruction → Option TokenKind
  | .arithmetic op => some (.binary (.arithmetic op))
  | .comparison op => some (.binary (.comparison op))
  | .math op => some (.unary (.math op))
  | .output op => some (.unary (.output op))
  | .input => some (.unary .input)
  | .popResult => some (.unary .ret)
  | _ => none

/-- The token that an instruction stands for is an operator. -/
theorem Instruction.isFixed_of_operator? {i : Instruction} {operator : TokenKind}
    (h : i.operator? = some operator) :
  operator.isFixed
  := by
  cases i <;> cases h <;> rfl

namespace TokenKind

/-- The instruction of an operator comes from that operator alone. -/
theorem instruction?_eq_some_iff {i : Instruction} {operator : TokenKind}
    (h : i.operator? = some operator) (funcs : SymbolTable) (entry : Nat) (token : TokenKind) :
  token.instruction? funcs entry = some i ↔ token = operator
  := by
  unfold instruction?
  cases i <;> cases h <;> split <;> simp

/-- Whether a literal comes from a token. -/
def isLiteral : TokenKind → Bool
  | .number _ | .control _ => true
  | _ => false

/-- A literal is an operator or a number. -/
theorem isFixed_of_isLiteral (token : TokenKind) (h : token.isLiteral) :
  token.isFixed
  := by
  match token, h with
  | .number _, _ | .control _, _ => rfl

/-- A token is spelled as a push if and only if it is a literal. -/
theorem isPush_instruction? (funcs : SymbolTable) (entry : Nat) (token : TokenKind) :
  ((token.instruction? funcs entry).map Instruction.isPush).getD false = token.isLiteral
  := by
  unfold instruction?
  split <;> rfl

/-- Literals come from numbers, branches and loops. -/
theorem countP_isLiteral (tokens : List TokenKind) :
  tokens.countP isLiteral
    = tokens.countP isNumber + tokens.count (.control .branch) + tokens.count (.control .loop)
  := by
  induction tokens with
  | nil => rfl
  | cons token tokens ih =>
    rw [List.countP_cons, List.countP_cons, List.count_cons, List.count_cons, ih]
    match token with
    | .number _ | .control .branch | .control .loop =>
      simp [isLiteral, isNumber]
      omega
    | .mark _ | .variable _ | .function _ | .binary _ | .unary _ => simp [isLiteral, isNumber]

end TokenKind

section Counts

variable {funcs : SymbolTable} {entry : Nat} {code : List Line} {symbols : List TokenKind}

/-- The count of an instruction is that of the operator that it computes. -/
theorem count_of_spelled_perm
    (hperm : (spelled code).Perm (symbols.filterMap (TokenKind.instruction? funcs entry)))
    {i : Instruction} {operator : TokenKind} (h : i.operator? = some operator) :
  code.count (.instruction i) = symbols.count operator
  := by
  have hi : i.isSpelled := by cases i <;> cases h <;> rfl
  rw [← count_spelled hi, hperm.count_eq, List.count_filterMap]
  apply List.countP_congr
  intro token _
  rw [beq_iff_eq, beq_iff_eq, TokenKind.instruction?_eq_some_iff h]

/-- There are as many pushes as literals. -/
theorem countP_isPush_of_spelled_perm
    (hperm : (spelled code).Perm (symbols.filterMap (TokenKind.instruction? funcs entry))) :
  code.countP Line.isPush = symbols.countP TokenKind.isLiteral
  := by
  rw [← countP_isPush_spelled, hperm.countP_eq, List.countP_filterMap]
  simp only [TokenKind.isPush_instruction?]

/-- The labels that are called are those of the functions that are named. -/
theorem callTargets_perm
    (hperm : (spelled code).Perm (symbols.filterMap (TokenKind.instruction? funcs entry))) :
  (callTargets code).Perm ((symbols.filterMap TokenKind.functionName?).map
    fun name => Lower.target entry (funcs.intern name).1)
  := by
  rw [← filterMap_callTarget?_spelled, List.map_filterMap]
  apply (hperm.filterMap _).trans
  rw [List.filterMap_filterMap]
  apply List.Perm.of_eq
  apply List.filterMap_congr
  intro token _
  unfold TokenKind.instruction?
  split <;> rfl

end Counts

/-- How often each instruction stands in the code, by the tokens of the source. -/
structure Accounts (tokens : List Token) (code : List Line) : Prop where
  arithmetic : ∀ op, code.count (.instruction (.arithmetic op))
    = (tokens.map (·.kind)).count (.binary (.arithmetic op))
  comparison : ∀ op, code.count (.instruction (.comparison op))
    = (tokens.map (·.kind)).count (.binary (.comparison op))
  math : ∀ op, code.count (.instruction (.math op))
    = (tokens.map (·.kind)).count (.unary (.math op))
  output : ∀ op, code.count (.instruction (.output op))
    = (tokens.map (·.kind)).count (.unary (.output op))
  input : code.count (.instruction .input) = (tokens.map (·.kind)).count (.unary .input)
  ret : code.count (.instruction .popResult) = (tokens.map (·.kind)).count (.unary .ret)
  calls : (callTargets code).length = (FunctionNames.called tokens).length
  literals : code.countP Line.isPush
    = (tokens.map (·.kind)).countP TokenKind.isNumber
      + (tokens.map (·.kind)).count (.control .branch)
      + (tokens.map (·.kind)).count (.control .loop)

/-- Nothing of a source is lost and nothing is emitted twice: every operator, number and call
becomes one instruction, and so does the zero with which a condition is compared. -/
theorem compile_accounts {source entry : String} {c : Compilation}
    (h : (compile source entry).result = .ok c) :
  ∃ tokens code, Token.scan source = .ok tokens ∧ c.HasCode code ∧ Accounts tokens code
  := by
  obtain ⟨tokens, program, first, others, hscan, hspelled, -, heq, -, hcode⟩ := compile_program h
  have hperm := Program.spelled_perm heq c.tree.vars c.tree.funcs {}
  refine ⟨tokens, _, hscan, hcode, ?_⟩
  have hcount {i : Instruction} {operator : TokenKind} (h : i.operator? = some operator) :
      _ = (tokens.map (·.kind)).count operator :=
    (count_of_spelled_perm hperm h).trans
      (hspelled.count_eq operator (Instruction.isFixed_of_operator? h)).symm
  constructor
  · exact fun op => hcount rfl
  · exact fun op => hcount rfl
  · exact fun op => hcount rfl
  · exact fun op => hcount rfl
  · exact hcount rfl
  · exact hcount rfl
  · rw [(callTargets_perm hperm).length_eq, List.length_map, hspelled.called]
  · rw [countP_isPush_of_spelled_perm hperm, ← hspelled.countP_eq TokenKind.isFixed_of_isLiteral,
      TokenKind.countP_isLiteral]

/-- The code of a program with calls in a loop accounts for its tokens. -/
theorem compile_accounts_callsInLoop :
  ∃ c, (compile callsInLoop "main").result = .ok c
    ∧ ∃ tokens code, Token.scan callsInLoop = .ok tokens ∧ c.HasCode code
      ∧ Accounts tokens code
  := by
  obtain ⟨c, hc⟩ := exists_compile_callsInLoop
  exact ⟨c, hc, compile_accounts hc⟩

end StackCompiler
