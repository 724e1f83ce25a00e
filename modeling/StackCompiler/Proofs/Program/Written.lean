import StackCompiler.Proofs.Program.Layout
import StackCompiler.Proofs.Program.Tokens

/-!
# Written programs

Programs as they are written, and their tokens.  A branch is written with a second body or without
one; otherwise the syntax is the one that the parser builds.

Operands, arguments and conditions that are operations are enclosed in parentheses.  Where else
parentheses stand, and whether an empty list of arguments or parameters has brackets, is a matter of
style.
-/

namespace StackCompiler

namespace Written

/-! ### Syntax -/

/-- A statement: `branch` has one body and `choice` has two. -/
inductive Statement where
  | assign (target : String) (value : Expr)
  | branch (condition : Expr) (consequence : List Statement)
  | choice (condition : Expr) (consequence alternative : List Statement)
  | loop (condition : Expr) (body : List Statement)
  | call (function : String) (arguments : List Expr)
  | ret (value : Expr)
  | output (op : OutputOp) (value : Expr)
  | input (target : String)

/-- A function: its name, the names of its parameters, and its body. -/
structure Definition where
  name : String
  parameters : List String
  body : List Statement

mutual

/-- What the parser makes of a statement. -/
def Statement.toStatement : Statement → StackCompiler.Statement
  | .assign target value => .assign target value
  | .branch condition consequence => .branch condition (Statement.toStatements consequence) []
  | .choice condition consequence alternative =>
    .branch condition (Statement.toStatements consequence) (Statement.toStatements alternative)
  | .loop condition body => .loop condition (Statement.toStatements body)
  | .call function arguments => .call function arguments
  | .ret value => .ret value
  | .output op value => .output op value
  | .input target => .input target

/-- What the parser makes of several statements. -/
def Statement.toStatements : List Statement → List StackCompiler.Statement
  | [] => []
  | statement :: statements => statement.toStatement :: Statement.toStatements statements

end

/-- What the parser makes of a function. -/
def Definition.toDefinition (d : Definition) : StackCompiler.Definition where
  name := d.name
  parameters := d.parameters
  body := Statement.toStatements d.body

/-- The numbers and names of a function as tokens, apart from its own name. -/
def Definition.leaves (d : Definition) : List TokenKind :=
  d.toDefinition.leaves

/-- A program: functions with different names, in which no variable has the name of a function and
only functions of the program are called. -/
structure Program where
  definitions : List Definition
  nonempty : definitions ≠ []
  distinct : (definitions.map (·.name)).Nodup
  disjoint : ∀ d ∈ definitions, ∀ name, .variable name ∈ d.leaves →
    name ∉ definitions.map (·.name)
  closed : ∀ d ∈ definitions, ∀ name, .function name ∈ d.leaves →
    name ∈ definitions.map (·.name)

/-! ### Encoding -/

mutual

/-- The shape that encodes a statement, given the symbol tables. -/
def Statement.shape (vars funcs : SymbolTable) : Statement → Shape
  | .assign target value =>
    .node (.binary .assign) (variableShape vars target) (value.shape vars funcs)
  | .branch condition consequence =>
    .node (.control .branch) (condition.shape vars funcs)
      (.node .separator (.chain (Statement.shapes vars funcs consequence)) .absent)
  | .choice condition consequence alternative =>
    .node (.control .branch) (condition.shape vars funcs)
      (.node .separator (.chain (Statement.shapes vars funcs consequence))
        (.chain (Statement.shapes vars funcs alternative)))
  | .loop condition body =>
    .node (.control .loop) (condition.shape vars funcs)
      (.node .separator (.chain (Statement.shapes vars funcs body)) .absent)
  | .call function arguments => (Expr.call function arguments).shape vars funcs
  | .ret value => .node (.unary .ret) .absent (value.shape vars funcs)
  | .output op value => .node (.unary (.output op)) .absent (value.shape vars funcs)
  | .input target => (Expr.input target).shape vars funcs

/-- The shapes that encode several statements. -/
def Statement.shapes (vars funcs : SymbolTable) : List Statement → List Shape
  | [] => []
  | statement :: statements =>
    statement.shape vars funcs :: Statement.shapes vars funcs statements

end

/-- The shape that encodes a chain of functions. -/
def Definition.chainShape (vars funcs : SymbolTable) : List Definition → Shape
  | [] => .absent
  | d :: ds =>
    .node (.function (funcs.intern d.name).1)
      (.node .separator (.chain (Statement.shapes vars funcs d.body))
        (.chain (d.parameters.map (variableShape vars))))
      (Definition.chainShape vars funcs ds)

section Encoding

variable {vars funcs : SymbolTable}

mutual

/-- A written statement has the shape of the statement that it stands for. -/
theorem Statement.shape_toStatement :
  ∀ (s : Statement), s.toStatement.shape vars funcs = s.shape vars funcs
  | .assign _ _ => rfl
  | .branch _ consequence => by
      rw [toStatement, StackCompiler.Statement.shape, shape, shapes_toStatements consequence]
      rfl
  | .choice _ consequence alternative => by
      rw [toStatement, StackCompiler.Statement.shape, shape, shapes_toStatements consequence,
        shapes_toStatements alternative]
  | .loop _ body => by
      rw [toStatement, StackCompiler.Statement.shape, shape, shapes_toStatements body]
  | .call _ _ => rfl
  | .ret _ => rfl
  | .output _ _ => rfl
  | .input _ => rfl

/-- Written statements have the shapes of the statements that they stand for. -/
theorem Statement.shapes_toStatements :
  ∀ (ss : List Statement),
    StackCompiler.Statement.shapes vars funcs (toStatements ss) = shapes vars funcs ss
  | [] => rfl
  | s :: ss => by
      rw [toStatements, StackCompiler.Statement.shapes, shapes, shape_toStatement s,
        shapes_toStatements ss]

end

/-- What the parser makes of functions has the shape that encodes them. -/
theorem Definition.chainShape_toDefinition (ds : List Definition) :
  StackCompiler.Definition.chainShape vars funcs (ds.map toDefinition) = chainShape vars funcs ds
  := by
  induction ds with
  | nil => rfl
  | cons d ds ih =>
    rw [List.map_cons, StackCompiler.Definition.chainShape, chainShape, ih, toDefinition,
      Statement.shapes_toStatements]

end Encoding

/-! ### Tokens -/

end Written

/-- Whether an expression is an operation. -/
def Expr.isOperation : Expr → Bool
  | .math _ _ => true
  | .arithmetic _ _ _ => true
  | .comparison _ _ _ => true
  | _ => false

/-- How a program is written: which operands, arguments and conditions are enclosed in parentheses,
which assigned and returned values are, and which functions have brackets around nothing.
Operations are enclosed. -/
structure Style where
  encloses : Expr → Bool
  enclosesValue : Expr → Bool
  brackets : String → Bool
  encloses_of_isOperation : ∀ e : Expr, e.isOperation → encloses e

namespace Written

/-- Tokens, in parentheses if that is wanted. -/
def enclosedIf (wanted : Bool) (tokens : List TokenKind) : List TokenKind :=
  if wanted then .mark .openParen :: (tokens ++ [.mark .closeParen]) else tokens

/-- A list in brackets with commas between its items; an empty one has brackets if they are
wanted. -/
def listed (wanted : Bool) : List (List TokenKind) → List TokenKind
  | [] => if wanted then [.mark .argumentsBegin, .mark .argumentsEnd] else []
  | item :: items =>
    .mark .argumentsBegin
      :: (item ++ (items.flatMap (.mark .comma :: ·) ++ [.mark .argumentsEnd]))

/-- A body of statements. -/
def block (statements : List (List TokenKind)) : List TokenKind :=
  .mark .openBrace :: (statements.flatMap (· ++ [.mark .separator]) ++ [.mark .closeBrace])

end Written

open Written

mutual

/-- The tokens of an expression without parentheses around it. -/
def Expr.tokens (style : Style) : Expr → List TokenKind
  | .number value => [.number value]
  | .variable name => [.variable name]
  | .input target => [.unary .input, .variable target]
  | .call function arguments =>
    .function function :: listed (style.brackets function) (Expr.operands style arguments)
  | .math op operand =>
    .unary (.math op) :: enclosedIf (style.encloses operand) (operand.tokens style)
  | .arithmetic op left right =>
    enclosedIf (style.encloses left) (left.tokens style)
      ++ .binary (.arithmetic op) :: enclosedIf (style.encloses right) (right.tokens style)
  | .comparison op left right =>
    enclosedIf (style.encloses left) (left.tokens style)
      ++ .binary (.comparison op) :: enclosedIf (style.encloses right) (right.tokens style)

/-- The tokens of several expressions as arguments. -/
def Expr.operands (style : Style) : List Expr → List (List TokenKind)
  | [] => []
  | e :: es => enclosedIf (style.encloses e) (e.tokens style) :: Expr.operands style es

end

namespace Style

/-- The tokens of an operand, an argument or a condition. -/
def operand (style : Style) (e : Expr) : List TokenKind :=
  enclosedIf (style.encloses e) (e.tokens style)

/-- The tokens of a value that is assigned or returned. -/
def value (style : Style) (e : Expr) : List TokenKind :=
  enclosedIf (style.enclosesValue e) (e.tokens style)

end Style

namespace Written

mutual

/-- The tokens of a statement without the mark that ends it. -/
def Statement.tokens (style : Style) : Statement → List TokenKind
  | .assign target value =>
    .binary .assign :: .variable target :: .mark .assignEnd :: style.value value
  | .branch condition consequence =>
    .control .branch
      :: (style.operand condition ++ block (Statement.tokensOfAll style consequence))
  | .choice condition consequence alternative =>
    .control .branch
      :: (style.operand condition
        ++ (block (Statement.tokensOfAll style consequence)
          ++ block (Statement.tokensOfAll style alternative)))
  | .loop condition body =>
    .control .loop :: (style.operand condition ++ block (Statement.tokensOfAll style body))
  | .call function arguments => (Expr.call function arguments).tokens style
  | .ret value => .unary .ret :: style.value value
  | .output op value => .unary (.output op) :: style.operand value
  | .input target => [.unary .input, .variable target]

/-- The tokens of several statements. -/
def Statement.tokensOfAll (style : Style) : List Statement → List (List TokenKind)
  | [] => []
  | statement :: statements =>
    statement.tokens style :: Statement.tokensOfAll style statements

end

/-- The tokens of a function. -/
def Definition.tokens (style : Style) (d : Definition) : List TokenKind :=
  .mark .define :: .function d.name
    :: (listed (style.brackets d.name) (d.parameters.map fun name => [.variable name])
      ++ block (Statement.tokensOfAll style d.body))

/-- The tokens of a program, with all names of functions marked as such. -/
def Program.tokens (style : Style) (program : Program) : List TokenKind :=
  program.definitions.flatMap (·.tokens style)

/-! ### Names among tokens -/

end Written

/-- The token may stand in a function with the given leaves: its name is one of them, and it neither
begins a function nor ends the input. -/
def TokenKind.StandsAmong (leaves : List TokenKind) : TokenKind → Prop
  | .variable name => .variable name ∈ leaves
  | .function name => .function name ∈ leaves
  | .mark m => m ≠ .define ∧ m ≠ .endOfInput
  | _ => True

/-- What stands among names stands among more names. -/
theorem TokenKind.StandsAmong.mono {leaves leaves' : List TokenKind} {token : TokenKind}
    (h : token.StandsAmong leaves) (hsubset : leaves ⊆ leaves') :
  token.StandsAmong leaves'
  := by
  match token, h with
  | .variable _, h => exact hsubset h
  | .function _, h => exact hsubset h
  | .mark _, h => exact h
  | .binary _, _ | .unary _, _ | .control _, _ | .number _, _ => trivial

namespace Written

/-- All tokens may stand in a function with the given leaves. -/
def Spells (leaves tokens : List TokenKind) : Prop :=
  ∀ token ∈ tokens, token.StandsAmong leaves

namespace Spells

variable {leaves leaves' tokens tokens' : List TokenKind}

theorem nil :
  Spells leaves []
  := nofun

theorem cons {token : TokenKind} (htoken : token.StandsAmong leaves) (h : Spells leaves tokens) :
  Spells leaves (token :: tokens)
  := List.forall_mem_cons.mpr ⟨htoken, h⟩

/-- A mark spells no name. -/
theorem mark {m : Mark} (hmark : m ≠ .define ∧ m ≠ .endOfInput) (h : Spells leaves tokens) :
  Spells leaves (.mark m :: tokens)
  := h.cons hmark

/-- One spelling after the other. -/
theorem append (h : Spells leaves tokens) (h' : Spells leaves tokens') :
  Spells leaves (tokens ++ tokens')
  := List.forall_mem_append.mpr ⟨h, h'⟩

/-- What spells names spells more names. -/
theorem mono (h : Spells leaves tokens) (hsubset : leaves ⊆ leaves') :
  Spells leaves' tokens
  := by
  intro token htoken
  apply (h token htoken).mono hsubset

/-- Parentheses spell no name. -/
theorem enclosedIf (wanted : Bool) (h : Spells leaves tokens) :
  Spells leaves (enclosedIf wanted tokens)
  := by
  cases wanted with
  | false => apply h
  | true => apply mark (by simp) (h.append (mark (by simp) nil))

/-- Items one after the other, if each of them is spelled. -/
theorem flatMap {items : List (List TokenKind)} {f : List TokenKind → List TokenKind}
    (h : ∀ item ∈ items, Spells leaves (f item)) :
  Spells leaves (items.flatMap f)
  := by
  intro token htoken
  obtain ⟨item, hitem, hmem⟩ := List.mem_flatMap.mp htoken
  apply h item hitem token hmem

/-- The marks of arguments and the commas spell no name. -/
theorem listed (wanted : Bool) {items : List (List TokenKind)}
    (h : ∀ item ∈ items, Spells leaves item) :
  Spells leaves (listed wanted items)
  := by
  cases items with
  | nil =>
    cases wanted with
    | false => apply nil
    | true => apply mark (by simp) (mark (by simp) nil)
  | cons item items =>
    obtain ⟨hitem, hitems⟩ := List.forall_mem_cons.mp h
    apply mark (by simp) (hitem.append _)
    apply append _ (mark (by simp) nil)
    apply flatMap
    intro item hitem
    apply mark (by simp) (hitems item hitem)

/-- Braces and the ends of statements spell no name. -/
theorem block {statements : List (List TokenKind)}
    (h : ∀ statement ∈ statements, Spells leaves statement) :
  Spells leaves (block statements)
  := by
  apply mark (by simp) (append _ (mark (by simp) nil))
  apply flatMap
  intro statement hstatement
  apply (h statement hstatement).append (mark (by simp) nil)

end Spells

end Written

mutual

/-- The tokens of an expression have no names but its own, in every style. -/
theorem Expr.spells_tokens (style : Style) :
  ∀ (e : Expr), Spells e.leaves (e.tokens style)
  | .number _ => .cons trivial .nil
  | .variable _ => .cons List.mem_cons_self .nil
  | .input _ => .cons trivial (.cons List.mem_cons_self .nil)
  | .call _ arguments => by
      apply Spells.cons List.mem_cons_self
      apply Spells.listed
      intro item hitem
      apply (Expr.spells_operands style arguments item hitem).mono
      apply List.subset_cons_self
  | .math _ operand => .cons trivial ((operand.spells_tokens style).enclosedIf _)
  | .arithmetic _ left right => by
      have hleft := (left.spells_tokens style).mono (List.subset_append_left _ right.leaves)
      have hright := (right.spells_tokens style).mono (List.subset_append_right left.leaves _)
      exact (hleft.enclosedIf _).append (.cons trivial (hright.enclosedIf _))
  | .comparison _ left right => by
      have hleft := (left.spells_tokens style).mono (List.subset_append_left _ right.leaves)
      have hright := (right.spells_tokens style).mono (List.subset_append_right left.leaves _)
      exact (hleft.enclosedIf _).append (.cons trivial (hright.enclosedIf _))

/-- The tokens of expressions have no names but their own, in every style. -/
theorem Expr.spells_operands (style : Style) :
  ∀ (es : List Expr), ∀ item ∈ Expr.operands style es, Spells (Expr.leavesOfAll es) item
  | [], _, hitem => by cases hitem
  | e :: es, item, hitem => by
      rcases List.mem_cons.mp hitem with rfl | hitem
      · apply ((e.spells_tokens style).enclosedIf _).mono
        apply List.subset_append_left
      · apply (Expr.spells_operands style es item hitem).mono
        apply List.subset_append_right

end

namespace Written

mutual

/-- The tokens of a statement have no names but its own, in every style. -/
theorem Statement.spells_tokens (style : Style) :
  ∀ (s : Statement), Spells s.toStatement.leaves (s.tokens style)
  | .assign target value => by
      refine .cons trivial (.cons List.mem_cons_self (.mark (by simp) ?_))
      apply ((value.spells_tokens style).enclosedIf _).mono
      apply List.subset_cons_self
  | .branch condition consequence => by
      refine .cons trivial (.append ?_ (.block ?_))
      · apply ((condition.spells_tokens style).enclosedIf _).mono
        apply List.subset_append_left
      · intro item hitem
        apply (Statement.spells_tokensOfAll style consequence item hitem).mono
        simp [toStatement, StackCompiler.Statement.leaves, StackCompiler.Statement.leavesOfAll]
  | .choice condition consequence alternative => by
      refine .cons trivial (.append ?_ (.append (.block ?_) (.block ?_)))
      · apply ((condition.spells_tokens style).enclosedIf _).mono
        apply List.subset_append_left
      · intro item hitem
        apply (Statement.spells_tokensOfAll style consequence item hitem).mono
        simp [toStatement, StackCompiler.Statement.leaves]
      · intro item hitem
        apply (Statement.spells_tokensOfAll style alternative item hitem).mono
        simp [toStatement, StackCompiler.Statement.leaves]
  | .loop condition body => by
      refine .cons trivial (.append ?_ (.block ?_))
      · apply ((condition.spells_tokens style).enclosedIf _).mono
        apply List.subset_append_left
      · intro item hitem
        apply (Statement.spells_tokensOfAll style body item hitem).mono
        apply List.subset_append_right
  | .call function arguments => (Expr.call function arguments).spells_tokens style
  | .ret value => .cons trivial ((value.spells_tokens style).enclosedIf _)
  | .output _ value => .cons trivial ((value.spells_tokens style).enclosedIf _)
  | .input _ => .cons trivial (.cons List.mem_cons_self .nil)

/-- The tokens of statements have no names but their own, in every style. -/
theorem Statement.spells_tokensOfAll (style : Style) :
  ∀ (ss : List Statement), ∀ item ∈ Statement.tokensOfAll style ss,
    Spells (StackCompiler.Statement.leavesOfAll (toStatements ss)) item
  | [], _, hitem => by cases hitem
  | s :: ss, item, hitem => by
      rcases List.mem_cons.mp hitem with rfl | hitem
      · apply (s.spells_tokens style).mono
        apply List.subset_append_left
      · apply (Statement.spells_tokensOfAll style ss item hitem).mono
        apply List.subset_append_right

end

/-- After its name, the tokens of a function are the parameters and the body. -/
theorem Definition.exists_tokens (style : Style) (d : Definition) :
  ∃ inner, d.tokens style = .mark .define :: .function d.name :: inner ∧ Spells d.leaves inner
  := by
  refine ⟨_, rfl, .append (.listed _ ?_) (.block ?_)⟩
  · intro item hitem
    obtain ⟨name, hname, rfl⟩ := List.mem_map.mp hitem
    apply Spells.cons _ .nil
    apply List.mem_append_left
    apply List.mem_map_of_mem hname
  · intro item hitem
    apply (Statement.spells_tokensOfAll style d.body item hitem).mono
    apply List.subset_append_right

end Written

end StackCompiler
