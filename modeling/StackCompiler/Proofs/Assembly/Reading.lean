import StackCompiler.Proofs.Binary64.Numeral
import StackCompiler.Proofs.Compile.Outcomes
import StackCompiler.Text.Span

/-!
# Reading assembly

An assembler turns a text into code.  A line whose first character is a colon is a label; the first
word of any other line is an instruction and the second one is its operand.  Lines without words are
left out.  The assembly of a source is read as the code of its definitions.
-/

namespace StackCompiler

/-! ### The assembler -/

namespace Text

/-- The words of a line. -/
def words (line : List Char) : List String :=
  ((line.splitOnP isBlank).filter fun word => !word.isEmpty).map String.ofList

/-- The natural number that digits write. -/
def natural? (digits : List Char) : Option Nat :=
  if !digits.isEmpty && digits.all Char.isDigit then some (Nat.ofDigitChars 10 digits 0) else none

/-- The natural number that a text writes after the given stem. -/
def numberAfter? (stem text : String) : Option Nat :=
  (text.toList.dropPrefix? stem.toList).bind natural?

end Text

/-- The label that a word writes. -/
def Label.ofWord? (word : String) : Option Label :=
  (Text.numberAfter? ":func" word).map .function
    <|> (Text.numberAfter? ":if_false_label" word).map .branchFalse
    <|> (Text.numberAfter? ":if_true_label" word).map .branchTrue
    <|> (Text.numberAfter? ":while_true_label" word).map .loopTrue
    <|> (Text.numberAfter? ":while_false_label" word).map .loopFalse
    <|> if word = ":main" then some .main else none

namespace Instruction

/-- The slot that an operand writes: a number between brackets. -/
def slot? (operand : String) : Option Nat :=
  match operand.toList with
  | '[' :: rest => if rest.getLast? = some ']' then Text.natural? rest.dropLast else none
  | _ => none

/-- The instruction without an operand that a word writes. -/
def ofWord? : String → Option Instruction
  | "SIN" => some (.math .sin)
  | "COS" => some (.math .cos)
  | "SQRT" => some (.math .sqrt)
  | "LN" => some (.math .ln)
  | "NOT" => some (.math .not)
  | "ADD" => some (.arithmetic .add)
  | "SUB" => some (.arithmetic .sub)
  | "MUL" => some (.arithmetic .mul)
  | "DIV" => some (.arithmetic .div)
  | "POW" => some (.arithmetic .pow)
  | "IS_EQUAL" => some (.comparison .eq)
  | "GREATER" => some (.comparison .gt)
  | "LESS" => some (.comparison .lt)
  | "GOE" => some (.comparison .ge)
  | "LOE" => some (.comparison .le)
  | "NOT_EQUAL" => some (.comparison .ne)
  | "OUT" => some (.output .out)
  | "OUT_S" => some (.output .outS)
  | "IN" => some .input
  | "ret" => some .ret
  | "hlt" => some .halt
  | _ => none

/-- The instruction that the words of a line write. -/
def ofWords? : List String → Option Instruction
  | ["PUSH", operand] =>
    (slot? operand).map .load <|> (Binary64.ofText? operand).map .push
      <|> if operand = "rax" then some .pushResult else none
  | ["POP", operand] =>
    (slot? operand).map .store <|> if operand = "rax" then some .popResult else none
  | ["je", operand] => (Label.ofWord? operand).map .jumpIfEqual
  | ["jmp", operand] => (Label.ofWord? operand).map .jump
  | ["CALL", operand] => (Label.ofWord? operand).map .call
  | [word] => ofWord? word
  | _ => none

end Instruction

/-- The line of code that a line of text writes. -/
def Line.ofText? (line : List Char) : Option Line :=
  match line with
  | ':' :: _ => (Label.ofWord? (String.ofList line)).map .label
  | _ => (Instruction.ofWords? (Text.words line)).map .instruction

/-- The code that a text writes. -/
def assemble (text : String) : Option (List Line) :=
  ((text.toList.splitOn '\n').filter fun line => !(Text.words line).isEmpty).mapM Line.ofText?

/-! ### Words that are written -/

namespace Text

/-- A text that is one word. -/
structure IsWord (text : String) : Prop where
  ne_nil : text.toList ≠ []
  not_isBlank : ∀ c ∈ text.toList, isBlank c = false

/-- A text without blanks that is not empty is a word. -/
theorem IsWord.of_any {text : String} (hne : text.toList ≠ [])
    (hblank : text.toList.any isBlank = false) :
  IsWord text
  := by
  use hne
  intro c hc
  apply Bool.eq_false_iff.mpr (List.any_eq_false.mp hblank c hc)

/-- Blanks in front of a line do not matter. -/
theorem words_blank (line : List Char) :
  words (' ' :: line) = words line
  := by
  have hblank : isBlank ' ' = true := rfl
  simp [words, List.splitOnP_cons_eq_if_modifyHead, hblank]

/-- A word alone is one word. -/
theorem words_word {word : String} (h : IsWord word) :
  words word.toList = [word]
  := by
  rw [words, List.splitOnP_eq_singleton h.not_isBlank]
  simp [h.ne_nil]

/-- A word up to a blank is the first word. -/
theorem words_word_blank {word : String} (h : IsWord word) (line : List Char) :
  words (word.toList ++ ' ' :: line) = word :: words line
  := by
  rw [words, List.splitOnP_append_cons_of_forall_mem h.not_isBlank ' ' rfl]
  simp [h.ne_nil, words]

/-- A word, a blank and an operand are two words. -/
theorem words_operand {op operand text : String} (hop : IsWord op) (hoperand : IsWord operand)
    (h : text.toList = op.toList ++ ' ' :: operand.toList) :
  words text.toList = [op, operand]
  := by
  rw [h, words_word_blank hop, words_word hoperand]

/-- There is no end of a line in a stem without one and a word. -/
theorem not_mem_append_word {stem word : String} (hstem : '\n' ∉ stem.toList)
    (hword : IsWord word) :
  '\n' ∉ (stem ++ word).toList
  := by
  rw [String.toList_append, List.mem_append, not_or]
  use hstem
  intro hmem
  cases hword.not_isBlank _ hmem

/-- A number is read back from its digits. -/
theorem natural?_toDigits (n : Nat) :
  natural? (Nat.toDigits 10 n) = some n
  := by
  have hdigits : (Nat.toDigits 10 n).all Char.isDigit :=
    List.all_eq_true.mpr fun c => Nat.isDigit_of_mem_toDigits (by decide) (by decide)
  simp [natural?, hdigits, Nat.ofDigitChars_ten_toDigits]

theorem toList_append_toString (stem : String) (n : Nat) :
  (stem ++ toString n).toList = stem.toList ++ Nat.toDigits 10 n
  := by
  rw [String.toList_append, Nat.toString_eq_ofList_toDigits, String.toList_ofList]

/-- A number is read back after its stem. -/
theorem numberAfter?_append (stem : String) (n : Nat) :
  numberAfter? stem (stem ++ toString n) = some n
  := by
  rw [numberAfter?, toList_append_toString, List.dropPrefix?_append_of_beq _ (beq_self_eq_true _),
    Option.bind_some, natural?_toDigits]

/-- What differs from a stem somewhere does not begin with it. -/
theorem dropPrefix?_append_eq_none {stem other rest : List Char}
    (h : (stem.zip other).any fun pair => pair.1 != pair.2) :
  (stem ++ rest).dropPrefix? other = none
  := by
  induction stem generalizing other with
  | nil => cases h
  | cons c stem ih =>
    cases other with
    | nil => cases h
    | cons d other =>
      rw [List.cons_append, List.dropPrefix?]
      split
      · rename_i heq
        apply ih
        simpa [eq_of_beq heq] using h
      · rfl

/-- A number after one stem is none after a stem that differs from it. -/
theorem numberAfter?_append_eq_none (stem other : String) (n : Nat)
    (h : (stem.toList.zip other.toList).any fun pair => pair.1 != pair.2) :
  numberAfter? other (stem ++ toString n) = none
  := by
  rw [numberAfter?, toList_append_toString, dropPrefix?_append_eq_none h, Option.bind_none]

/-- A word with a number is a word. -/
theorem IsWord.append_toString {stem : String} (h : IsWord stem) (n : Nat) :
  IsWord (stem ++ toString n)
  := by
  constructor
  · rw [toList_append_toString]
    simp [h.ne_nil]
  · intro c hc
    rw [toList_append_toString] at hc
    rcases List.mem_append.mp hc with hc | hc
    · apply h.not_isBlank c hc
    · apply isBlank_of_isDigit (Nat.isDigit_of_mem_toDigits (by decide) (by decide) hc)

end Text

namespace Label

/-- The text of a label is a word. -/
theorem isWord_text (label : Label) :
  Text.IsWord label.text
  := by
  cases label with
  | main => exact .of_any (by decide) (by decide)
  | _ => exact .append_toString (.of_any (by decide) (by decide)) _

/-- A label is read back. -/
theorem ofWord?_text (label : Label) :
  ofWord? label.text = some label
  := by
  cases label with
  | main => decide
  | function index =>
    unfold ofWord? text
    dsimp only
    rw [Text.numberAfter?_append]
    simp
  | branchFalse number =>
    have hdiffers := fun other => Text.numberAfter?_append_eq_none ":if_false_label" other number
    unfold ofWord? text
    dsimp only
    rw [hdiffers ":func" (by decide), Text.numberAfter?_append]
    simp
  | branchTrue number =>
    have hdiffers := fun other => Text.numberAfter?_append_eq_none ":if_true_label" other number
    unfold ofWord? text
    dsimp only
    rw [hdiffers ":func" (by decide), hdiffers ":if_false_label" (by decide),
      Text.numberAfter?_append]
    simp
  | loopTrue number =>
    have hdiffers := fun other => Text.numberAfter?_append_eq_none ":while_true_label" other number
    unfold ofWord? text
    dsimp only
    rw [hdiffers ":func" (by decide), hdiffers ":if_false_label" (by decide),
      hdiffers ":if_true_label" (by decide), Text.numberAfter?_append]
    simp
  | loopFalse number =>
    have hdiffers := fun other => Text.numberAfter?_append_eq_none ":while_false_label" other number
    unfold ofWord? text
    dsimp only
    rw [hdiffers ":func" (by decide), hdiffers ":if_false_label" (by decide),
      hdiffers ":if_true_label" (by decide), hdiffers ":while_true_label" (by decide),
      Text.numberAfter?_append]
    simp

end Label

namespace Instruction

theorem toList_slot (slot : Nat) :
  ("[" ++ toString slot ++ "]").toList = '[' :: (Nat.toDigits 10 slot ++ [']'])
  := by
  rw [String.toList_append, Text.toList_append_toString]
  rfl

/-- A slot is read back from its text. -/
theorem slot?_text (slot : Nat) :
  slot? ("[" ++ toString slot ++ "]") = some slot
  := by
  simp only [slot?, toList_slot, List.getLast?_concat, if_true, List.dropLast_concat,
    Text.natural?_toDigits]

/-- The text of a slot is a word. -/
theorem isWord_slot (slot : Nat) :
  Text.IsWord ("[" ++ toString slot ++ "]")
  := by
  constructor
  · rw [toList_slot]
    apply List.cons_ne_nil
  · intro c hc
    rw [toList_slot] at hc
    rcases List.mem_cons.mp hc with rfl | hc
    · rfl
    · rcases List.mem_append.mp hc with hc | hc
      · apply Text.isBlank_of_isDigit (Nat.isDigit_of_mem_toDigits (by decide) (by decide) hc)
      · rw [List.mem_singleton.mp hc]
        rfl

/-- The text of a number is a word. -/
theorem isWord_number (value : Binary64) :
  Text.IsWord value.text
  := ⟨value.toList_text_ne_nil, fun _ => Binary64.isBlank_of_mem_text⟩

/-- The text of a number is not that of a slot. -/
theorem slot?_number (value : Binary64) :
  slot? value.text = none
  := by
  unfold slot?
  split
  · rename_i heq
    have hmem : '[' ∈ value.text.toList := heq ▸ List.mem_cons_self
    cases value.not_mem_text rfl (by decide) hmem
  · rfl

/-- Whether the text of an instruction shows all of it. -/
def isLegible : Instruction → Bool
  | push value => !value.isNaN
  | _ => true

/-- What the text of an instruction is read as. -/
def reread : Instruction → Instruction
  | push value => push value.reread
  | i => i

/-- A legible instruction is read back as it is. -/
theorem reread_of_isLegible {i : Instruction} (h : i.isLegible) :
  i.reread = i
  := by
  cases i with
  | push value =>
    have hnan : ¬ value.isNaN := by simpa [isLegible] using h
    rw [reread, Binary64.reread_of_not_isNaN hnan]
  | _ => rfl

theorem text_load (slot : Nat) :
  (load slot).text = "PUSH " ++ ("[" ++ toString slot ++ "]")
  := by
  rw [← String.append_assoc, ← String.append_assoc]
  rfl

theorem text_store (slot : Nat) :
  (store slot).text = "POP " ++ ("[" ++ toString slot ++ "]")
  := by
  rw [← String.append_assoc, ← String.append_assoc]
  rfl

/-- An instruction is read back from its words. -/
theorem ofWords?_text (i : Instruction) :
  ofWords? (Text.words i.text.toList) = some i.reread
  := by
  have hpush : Text.IsWord "PUSH" := .of_any (by decide) (by decide)
  have hpop : Text.IsWord "POP" := .of_any (by decide) (by decide)
  have hjump : Text.IsWord "jmp" := .of_any (by decide) (by decide)
  have hjumpIfEqual : Text.IsWord "je" := .of_any (by decide) (by decide)
  have hcall : Text.IsWord "CALL" := .of_any (by decide) (by decide)
  cases i with
  | push value =>
    rw [Text.words_operand hpush (isWord_number value) String.toList_append]
    simp [ofWords?, slot?_number, Binary64.ofText?_text, reread]
  | load slot =>
    rw [text_load, Text.words_operand hpush (isWord_slot slot) String.toList_append, ofWords?,
      slot?_text]
    rfl
  | pushResult => decide
  | store slot =>
    rw [text_store, Text.words_operand hpop (isWord_slot slot) String.toList_append, ofWords?,
      slot?_text]
    rfl
  | popResult => decide
  | math op => cases op <;> decide
  | arithmetic op => cases op <;> decide
  | comparison op => cases op <;> decide
  | output op => cases op <;> decide
  | input => decide
  | jump target =>
    rw [Text.words_operand hjump target.isWord_text String.toList_append]
    simp [ofWords?, Label.ofWord?_text, reread]
  | jumpIfEqual target =>
    rw [Text.words_operand hjumpIfEqual target.isWord_text String.toList_append]
    simp [ofWords?, Label.ofWord?_text, reread]
  | call target =>
    rw [Text.words_operand hcall target.isWord_text String.toList_append]
    simp [ofWords?, Label.ofWord?_text, reread]
  | ret => decide
  | halt => decide

/-- An instruction is written on one line. -/
theorem not_mem_text (i : Instruction) :
  '\n' ∉ i.text.toList
  := by
  cases i with
  | push value => apply Text.not_mem_append_word (by decide) (isWord_number value)
  | load slot =>
    rw [text_load]
    apply Text.not_mem_append_word (by decide) (isWord_slot slot)
  | store slot =>
    rw [text_store]
    apply Text.not_mem_append_word (by decide) (isWord_slot slot)
  | jump target => apply Text.not_mem_append_word (by decide) target.isWord_text
  | jumpIfEqual target => apply Text.not_mem_append_word (by decide) target.isWord_text
  | call target => apply Text.not_mem_append_word (by decide) target.isWord_text
  | math op => cases op <;> decide
  | arithmetic op => cases op <;> decide
  | comparison op => cases op <;> decide
  | output op => cases op <;> decide
  | _ => decide

end Instruction

namespace Line

/-- Whether the text of a line shows all of it. -/
def isLegible : Line → Bool
  | .instruction i => i.isLegible
  | .label _ => true

/-- What the text of a line is read as. -/
def reread : Line → Line
  | .instruction i => .instruction i.reread
  | .label l => .label l

theorem reread_of_isLegible {line : Line} (h : line.isLegible) :
  line.reread = line
  := by
  cases line with
  | instruction i => rw [reread, Instruction.reread_of_isLegible h]
  | label l => rfl

theorem toList_indented (text : String) :
  (indented text).toList = ' ' :: ' ' :: ' ' :: ' ' :: text.toList
  := String.toList_append

/-- Indentation does not matter. -/
theorem words_indented (text : String) :
  Text.words (indented text).toList = Text.words text.toList
  := by
  rw [toList_indented, Text.words_blank, Text.words_blank, Text.words_blank, Text.words_blank]

/-- A line is read back. -/
theorem ofText?_text (line : Line) :
  ofText? line.text.toList = some line.reread
  := by
  cases line with
  | instruction i =>
    have hwords := words_indented i.text
    rw [toList_indented] at hwords
    rw [text, toList_indented, ofText?, hwords, Instruction.ofWords?_text]
    · rfl
    · nofun
  | label l =>
    obtain ⟨rest, hrest⟩ : ∃ rest, l.text.toList = ':' :: rest := by
      cases l with
      | main => exact ⟨_, rfl⟩
      | _ => exact ⟨_, String.toList_append⟩
    rw [text, hrest, ofText?, ← hrest, String.ofList_toList, Label.ofWord?_text]
    rfl

/-- No line is blank. -/
theorem words_text_ne_nil (line : Line) :
  Text.words line.text.toList ≠ []
  := by
  intro hnil
  cases line with
  | instruction i =>
    rw [text, words_indented] at hnil
    have hread := i.ofWords?_text
    rw [hnil] at hread
    cases hread
  | label l =>
    rw [text, Text.words_word l.isWord_text] at hnil
    cases hnil

/-- There is no end of a line inside a line. -/
theorem not_mem_text (line : Line) :
  '\n' ∉ line.text.toList
  := by
  cases line with
  | instruction i =>
    rw [text, toList_indented]
    simp [i.not_mem_text]
  | label l =>
    intro hmem
    cases l.isWord_text.not_isBlank _ hmem

end Line

/-- Lines that are joined are cut again at their ends. -/
theorem splitOn_join {lines : List String} (h : ∀ line ∈ lines, '\n' ∉ line.toList) :
  (String.join (lines.map (· ++ "\n"))).toList.splitOn '\n' = lines.map String.toList ++ [[]]
  := by
  induction lines with
  | nil => apply List.splitOn_nil
  | cons line lines ih =>
    obtain ⟨hline, hlines⟩ := List.forall_mem_cons.mp h
    have hbreak : "\n".toList = ['\n'] := rfl
    rw [List.map_cons, String.join_cons, String.toList_append, String.toList_append, hbreak,
      List.append_assoc, List.singleton_append, List.splitOn_append_cons_self_of_not_mem hline,
      ih hlines, List.map_cons, List.cons_append]

/-- Every line of code is read back. -/
theorem mapM_ofText? (code : List Line) :
  (code.map (·.text.toList)).mapM Line.ofText? = some (code.map Line.reread)
  := by
  induction code with
  | nil => rfl
  | cons line code ih =>
    rw [List.map_cons, List.mapM_cons, Line.ofText?_text, ih]
    rfl

/-- The text of code is read back. -/
theorem assemble_join (code : List Line) :
  assemble (String.join (code.map (·.text ++ "\n"))) = some (code.map Line.reread)
  := by
  have hbreak : ∀ text ∈ code.map Line.text, '\n' ∉ text.toList := by
    intro text htext
    obtain ⟨line, -, rfl⟩ := List.mem_map.mp htext
    apply line.not_mem_text
  have hsplit : (String.join (code.map (·.text ++ "\n"))).toList.splitOn '\n'
      = code.map (·.text.toList) ++ [[]] := by
    have hjoin := splitOn_join hbreak
    rwa [List.map_map, List.map_map] at hjoin
  have hwords : ∀ text ∈ code.map (·.text.toList), !(Text.words text).isEmpty := by
    intro text htext
    obtain ⟨line, -, rfl⟩ := List.mem_map.mp htext
    simp [line.words_text_ne_nil]
  have hblank : [[]].filter (fun line => !(Text.words line).isEmpty) = [] := by simp [Text.words]
  rw [assemble, hsplit, List.filter_append, List.filter_eq_self.mpr hwords, hblank,
    List.append_nil, mapM_ofText?]

/-- Legible code is read back as it is. -/
theorem map_reread_of_isLegible {code : List Line} (h : ∀ line ∈ code, line.isLegible) :
  code.map Line.reread = code
  := by
  conv_rhs => rw [← List.map_id code]
  apply List.map_congr_left
  intro line hline
  apply Line.reread_of_isLegible (h line hline)

/-! ### Code of a program -/

/-- All numbers among the tokens are finite. -/
def AllFinite (tokens : List TokenKind) : Prop :=
  ∀ value, .number value ∈ tokens → value.isFinite

theorem AllFinite.of_cons {token : TokenKind} {tokens : List TokenKind}
    (h : AllFinite (token :: tokens)) :
  AllFinite tokens
  := fun value hvalue => h value (List.mem_cons_of_mem _ hvalue)

/-- Both parts of tokens with finite values have finite values. -/
theorem AllFinite.of_append {tokens others : List TokenKind} (h : AllFinite (tokens ++ others)) :
  AllFinite tokens ∧ AllFinite others
  := by
  constructor
  · intro value hvalue
    apply h value (List.mem_append_left _ hvalue)
  · intro value hvalue
    apply h value (List.mem_append_right _ hvalue)

/-- A finite value is legible. -/
theorem Instruction.isLegible_push {value : Binary64} (h : value.isFinite) :
  (Instruction.push value).isLegible
  := by
  rw [Instruction.isLegible, Bool.not_eq_true', Bool.eq_false_iff]
  apply Binary64.not_isNaN_of_isFinite h

/-- The code of a call is legible if that of the arguments is. -/
theorem isLegible_call {index : Nat} {saved : List Nat} {arguments : List Line} {entry : Nat}
    (h : arguments.all Line.isLegible) :
  (Lower.call entry index saved arguments).all Line.isLegible
  := by
  simp [Lower.call, h, Line.isLegible, Instruction.isLegible]

/-- The code of a branch is legible if that of its parts is. -/
theorem isLegible_branch {number : Nat} {condition consequence alternative : List Line}
    (hcondition : condition.all Line.isLegible) (h : consequence.all Line.isLegible)
    (h' : alternative.all Line.isLegible) :
  (Lower.branch number condition consequence alternative).all Line.isLegible
  := by
  have hzero : (Instruction.push (.ofNat 0)).isLegible := by decide
  simp only [Lower.branch, List.all_append, List.all_cons, hcondition, h, h', Line.isLegible, hzero]
  rfl

/-- The code of a loop is legible if that of its parts is. -/
theorem isLegible_loop {number : Nat} {condition body : List Line}
    (hcondition : condition.all Line.isLegible) (h : body.all Line.isLegible) :
  (Lower.loop number condition body).all Line.isLegible
  := by
  have hzero : (Instruction.push (.ofNat 0)).isLegible := by decide
  simp only [Lower.loop, List.all_append, List.all_cons, hcondition, h, Line.isLegible, hzero]
  rfl

section Legible

variable {vars funcs : SymbolTable} {entry : Nat}

mutual

/-- The text of the code of an expression shows all of it. -/
theorem Expr.isLegible_code :
  ∀ (e : Expr), AllFinite e.leaves → (e.code vars funcs entry).all Line.isLegible
  | .number value, h => by
      rw [Expr.code, List.all_cons, List.all_nil, Bool.and_true]
      apply Instruction.isLegible_push (h value List.mem_cons_self)
  | .variable _, _ => rfl
  | .input _, _ => rfl
  | .call _ arguments, h => by
      rw [Expr.code, List.all_append, isLegible_call (Expr.isLegible_codes arguments h.of_cons)]
      rfl
  | .math _ operand, h => by
      rw [Expr.code, List.all_append, operand.isLegible_code h]
      rfl
  | .arithmetic _ left right, h => by
      rw [Expr.code, List.all_append, List.all_append, left.isLegible_code h.of_append.1,
        right.isLegible_code h.of_append.2]
      rfl
  | .comparison _ left right, h => by
      rw [Expr.code, List.all_append, List.all_append, left.isLegible_code h.of_append.1,
        right.isLegible_code h.of_append.2]
      rfl

/-- The code of expressions with finite values is legible. -/
theorem Expr.isLegible_codes :
  ∀ (es : List Expr), AllFinite (Expr.leavesOfAll es) →
    (Expr.codes vars funcs entry es).all Line.isLegible
  | [], _ => rfl
  | e :: es, h => by
      rw [Expr.codes, List.all_append, e.isLegible_code h.of_append.1,
        Expr.isLegible_codes es h.of_append.2]
      rfl

end

mutual

/-- The text of the code of a statement shows all of it. -/
theorem Statement.isLegible_code :
  ∀ (s : Statement) (numbering : Numbering), AllFinite s.leaves →
    (s.code vars funcs entry numbering).1.all Line.isLegible
  | .assign _ value, _, h => by
      rw [Statement.code, List.all_append, value.isLegible_code h.of_cons]
      rfl
  | .branch condition consequence alternative, _, h => by
      obtain ⟨hcondition, harms⟩ := h.of_append
      apply isLegible_branch (condition.isLegible_code hcondition)
      · apply Statement.isLegible_codes consequence _ harms.of_append.1
      · apply Statement.isLegible_codes alternative _ harms.of_append.2
  | .loop condition body, _, h => by
      apply isLegible_loop (condition.isLegible_code h.of_append.1)
      apply Statement.isLegible_codes body _ h.of_append.2
  | .call _ arguments, _, h => isLegible_call (Expr.isLegible_codes arguments h.of_cons)
  | .ret value, _, h => by
      rw [Statement.code, List.all_append, value.isLegible_code h]
      rfl
  | .output _ value, _, h => by
      rw [Statement.code, List.all_append, value.isLegible_code h]
      rfl
  | .input _, _, _ => rfl

/-- The code of statements with finite values is legible. -/
theorem Statement.isLegible_codes :
  ∀ (ss : List Statement) (numbering : Numbering), AllFinite (Statement.leavesOfAll ss) →
    (Statement.codes vars funcs entry ss numbering).1.all Line.isLegible
  | [], _, _ => rfl
  | s :: ss, numbering, h => by
      rw [Statement.codes, List.all_append, s.isLegible_code _ h.of_append.1,
        Statement.isLegible_codes ss _ h.of_append.2]
      rfl

end

/-- The code of a function with finite values is legible. -/
theorem Definition.isLegible_code {d : Definition} (h : AllFinite d.leaves)
    (numbering : Numbering) :
  (d.code vars funcs entry numbering).1.all Line.isLegible
  := by
  have hstores : ∀ slots : List Nat,
      (slots.map fun slot => Line.instruction (.store slot)).all Line.isLegible := by
    simp [Line.isLegible, Instruction.isLegible]
  rw [Definition.code, List.all_append, List.all_append, List.all_cons, hstores,
    Statement.isLegible_codes d.body numbering h.of_append.2]
  split <;> rfl

/-- The code of functions with finite values is legible. -/
theorem Definition.isLegible_codes {ds : List Definition} (h : ∀ d ∈ ds, AllFinite d.leaves)
    (numbering : Numbering) :
  (Definition.codes vars funcs entry ds numbering).1.all Line.isLegible
  := by
  induction ds generalizing numbering with
  | nil => rfl
  | cons d ds ih =>
    obtain ⟨hd, hds⟩ := List.forall_mem_cons.mp h
    rw [Definition.codes, List.all_append, d.isLegible_code hd, ih hds]
    rfl

end Legible

/-- The code of a tree of definitions is read back from its text. -/
theorem Tree.LaysOut.assemble_eq {t : Tree} {first : Definition} {others : List Definition}
    (h : t.LaysOut first others) (numbering : Numbering) :
  assemble (String.join
      ((Definition.programCode t.vars t.funcs first others numbering).1.map (·.text ++ "\n")))
    = some (Definition.programCode t.vars t.funcs first others numbering).1
  := by
  obtain ⟨hfirst, hothers⟩ := List.forall_mem_cons.mp h.finite
  rw [assemble_join, map_reread_of_isLegible]
  apply List.all_eq_true.mp
  rw [Definition.programCode, List.all_append, List.all_append, List.all_cons, List.all_cons,
    Definition.isLegible_codes hothers,
    Statement.isLegible_codes first.body _ (AllFinite.of_append hfirst).2]
  rfl

end StackCompiler
