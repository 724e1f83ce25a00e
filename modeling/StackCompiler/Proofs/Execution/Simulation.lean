import StackCompiler.Proofs.Assembly.Labels
import StackCompiler.Proofs.Program.Findings

/-!
# Code does what its tree means

The code of an expression leaves its value on the stack, the code of a statement leaves the stack as
it was, and both change the store as the interpreter does.  The argument is by induction on the fuel
of the interpreter, for all kinds of code at once.
-/

namespace StackCompiler

/-- The lines ahead when statements with the given lines after them have ended. -/
def Flow.ahead : Flow → List Line → List Line
  | .next, rest => rest
  | .returned, _ => [.instruction .ret]

/-! ### Straight code -/

namespace Machine

variable {V : Type} {A : Arithmetic V} {code : List Line}

/-- Running some lines replaces the values on top of the stack and the store, whatever is below
these values and whatever comes after the lines. -/
def Runs (A : Arithmetic V) (code lines : List Line) (before after : List V × Store V) : Prop :=
  ∀ (rest : List Line) (stack : List V) (callers : List (List Line)) (final : List V × Store V),
    Halts A code ⟨rest, after.1 ++ stack, callers, after.2⟩ final →
    Halts A code ⟨lines ++ rest, before.1 ++ stack, callers, before.2⟩ final

namespace Runs

variable {lines lines' : List Line} {before middle after : List V × Store V}

theorem nil (before : List V × Store V) :
  Runs A code [] before before
  := fun _ _ _ _ h => h

/-- Straight code after straight code. -/
theorem append (h : Runs A code lines before middle) (h' : Runs A code lines' middle after) :
  Runs A code (lines ++ lines') before after
  := by
  intro rest stack callers final hfinal
  rw [List.append_assoc]
  apply h
  apply h'
  apply hfinal

/-- Values further down stay as they are. -/
theorem frame (h : Runs A code lines before after) (values : List V) :
  Runs A code lines (before.1 ++ values, before.2) (after.1 ++ values, after.2)
  := by
  intro rest stack callers final hfinal
  rw [List.append_assoc] at hfinal ⊢
  apply h rest (values ++ stack) callers final hfinal

/-- An instruction alone, if it is performed so on every stack. -/
theorem instruction {i : Instruction}
    (h : ∀ rest stack callers,
      perform A code i ⟨rest, before.1 ++ stack, callers, before.2⟩
        = .next ⟨rest, after.1 ++ stack, callers, after.2⟩) :
  Runs A code [.instruction i] before after
  := by
  intro rest stack callers final hfinal
  apply Halts.of_step _ hfinal
  apply h

/-- Slots are pushed one after the other, so the last one ends on top. -/
theorem loads (saved : List Nat) (store : Store V) :
  Runs A code (saved.map fun slot => .instruction (.load slot)) ([], store)
    ((saved.map store.slots).reverse, store)
  := by
  induction saved with
  | nil => apply Runs.nil
  | cons slot saved ih =>
    have hfirst : Runs A code [.instruction (.load slot)] ([], store) ([store.slots slot], store) :=
      .instruction fun _ _ _ => rfl
    rw [List.map_cons, List.map_cons, List.reverse_cons]
    apply hfirst.append (ih.frame [store.slots slot])

/-- A store moves the topmost value to its slot. -/
theorem store (slot : Nat) (value : V) (store : Store V) :
  Runs A code [.instruction (.store slot)] ([value], store) ([], store.set slot value)
  := .instruction fun _ _ _ => rfl

/-- An input that is stored moves one value from the input to the slot. -/
theorem input {store store' : Store V} {value : V} (h : store.read? = some (value, store'))
    (slot : Nat) :
  Runs A code [.instruction .input, .instruction (.store slot)] ([], store)
    ([], store'.set slot value)
  := by
  have hread : Runs A code [.instruction .input] ([], store) ([value], store') := by
    apply Runs.instruction
    intro rest stack callers
    exact perform_input h rest stack callers
  apply hread.append (Runs.store slot value store')

/-- Slots that were pushed are taken off the stack again. -/
theorem restores (saved : List Nat) (before : Nat → V) (store : Store V) :
  Runs A code (saved.map fun slot => .instruction (.store slot)) (saved.map before, store)
    ([], store.restore saved before)
  := by
  induction saved generalizing store with
  | nil =>
    rw [Store.restore_nil]
    apply Runs.nil
  | cons slot saved ih =>
    rw [Store.restore_cons]
    apply ((Runs.store slot (before slot) store).frame (saved.map before)).append (ih _)

/-- Parameters are taken off the stack, the last one first. -/
theorem parameters (slots : List Nat) (values : List V) (store : Store V)
    (h : slots.length = values.length) :
  Runs A code (slots.reverse.map fun slot => .instruction (.store slot)) (values.reverse, store)
    ([], store.bind slots values)
  := by
  induction slots generalizing values with
  | nil =>
    cases values with
    | nil => apply Runs.nil
    | cons value values => cases h
  | cons slot slots ih =>
    cases values with
    | nil => cases h
    | cons value values =>
      rw [List.reverse_cons, List.map_append, List.reverse_cons]
      apply ((ih values (Nat.succ.inj h)).frame [value]).append
      apply Runs.store slot value

end Runs

/-! ### Code with jumps -/

section Jumps

variable {label : Label} {rest ahead : List Line} {stack : List V} {callers : List (List Line)}
  {store : Store V} {final : List V × Store V} {value : V}

/-- A label that stands in the code is found. -/
theorem goTo_eq_next (hnodup : (labels code).Nodup) (hlabel : .label label :: ahead <:+ code)
    (machine : Machine V) :
  machine.goTo code label = .next { machine with ahead }
  := by
  rw [goTo, linesAfter_of_suffix hnodup hlabel]

/-- A jump goes on behind its label. -/
theorem Halts.jump (hnodup : (labels code).Nodup) (hlabel : .label label :: ahead <:+ code)
    (h : Halts A code ⟨ahead, stack, callers, store⟩ final) :
  Halts A code ⟨.instruction (.jump label) :: rest, stack, callers, store⟩ final
  := Halts.of_step (goTo_eq_next hnodup hlabel _) h

/-- A call goes on behind the label of its function, and what comes next waits. -/
theorem Halts.call (hnodup : (labels code).Nodup) (hlabel : .label label :: ahead <:+ code)
    (h : Halts A code ⟨ahead, stack, rest :: callers, store⟩ final) :
  Halts A code ⟨.instruction (.call label) :: rest, stack, callers, store⟩ final
  := Halts.of_step (goTo_eq_next hnodup hlabel _) h

/-- A condition that fails leads to the label. -/
theorem Halts.test_zero (hnodup : (labels code).Nodup) (hlabel : .label label :: ahead <:+ code)
    (hzero : A.isZero value) (h : Halts A code ⟨ahead, stack, callers, store⟩ final) :
  Halts A code
    ⟨.instruction (.push (.ofNat 0)) :: .instruction (.jumpIfEqual label) :: rest, value :: stack,
      callers, store⟩ final
  := by
  have hjump := goTo_eq_next hnodup hlabel ⟨rest, stack, callers, store⟩
  apply Halts.of_step rfl
  exact Halts.of_step ((if_pos hzero).trans hjump) h

/-- A condition that holds leads on. -/
theorem Halts.test_nonzero (hzero : ¬A.isZero value)
    (h : Halts A code ⟨rest, stack, callers, store⟩ final) :
  Halts A code
    ⟨.instruction (.push (.ofNat 0)) :: .instruction (.jumpIfEqual label) :: rest, value :: stack,
      callers, store⟩ final
  := by
  apply Halts.of_step rfl
  exact Halts.of_step (if_neg hzero) h

/-- Statements that go on may go on at any lines that lead there. -/
theorem Halts.of_flow {flow : Flow} {rest' : List Line}
    (h : Halts A code ⟨flow.ahead rest, stack, callers, store⟩ final)
    (hnext : Halts A code ⟨rest, stack, callers, store⟩ final →
      Halts A code ⟨rest', stack, callers, store⟩ final) :
  Halts A code ⟨flow.ahead rest', stack, callers, store⟩ final
  := by
  cases flow with
  | next => apply hnext h
  | returned => apply h

end Jumps

theorem suffix_of_cons {line : Line} {lines : List Line} (h : line :: lines <:+ code) :
  lines <:+ code
  := (List.suffix_cons line lines).trans h

theorem suffix_of_append {lines lines' : List Line} (h : lines ++ lines' <:+ code) :
  lines' <:+ code
  := (List.suffix_append lines lines').trans h

/-- Running the lines of statements at their place in the code ends as given, with the stack as it
was. -/
def Carries (A : Arithmetic V) (code lines : List Line) (before : Store V) (flow : Flow)
    (after : Store V) : Prop :=
  ∀ (rest : List Line) (stack : List V) (callers : List (List Line)) (final : List V × Store V),
    lines ++ rest <:+ code →
    Halts A code ⟨flow.ahead rest, stack, callers, after⟩ final →
    Halts A code ⟨lines ++ rest, stack, callers, before⟩ final

namespace Carries

variable {lines lines' condition consequence alternative body : List Line}
  {before middle after again : Store V} {flow : Flow} {value : V} {number : Nat}

/-- Straight code that leaves the stack as it was carries on. -/
theorem of_runs (h : Runs A code lines ([], before) ([], after)) :
  Carries A code lines before .next after
  := fun rest stack callers final _ hfinal => h rest stack callers final hfinal

/-- Code after code that carries on. -/
theorem append (h : Carries A code lines before .next middle)
    (h' : Carries A code lines' middle flow after) :
  Carries A code (lines ++ lines') before flow after
  := by
  intro rest stack callers final hplace hfinal
  rw [List.append_assoc] at hplace ⊢
  apply h _ _ _ _ hplace
  apply h' _ _ _ _ _ hfinal
  apply suffix_of_append hplace

/-- After a return nothing else is done. -/
theorem append_returned (h : Carries A code lines before .returned after) :
  Carries A code (lines ++ lines') before .returned after
  := by
  intro rest stack callers final hplace hfinal
  rw [List.append_assoc] at hplace ⊢
  apply h _ _ _ _ hplace hfinal

/-- A return leaves its value as the result. -/
theorem ret (h : Runs A code lines ([], before) ([value], after)) :
  Carries A code (lines ++ [.instruction .popResult, .instruction .ret]) before .returned
    { after with result := value }
  := by
  intro rest stack callers final _ hfinal
  rw [List.append_assoc]
  apply h
  apply Halts.of_step rfl
  apply Halts.of_ret hfinal

/-- A branch whose condition fails runs its alternative. -/
theorem branch_zero (hnodup : (labels code).Nodup)
    (htest : Runs A code condition ([], before) ([value], middle)) (hzero : A.isZero value)
    (h : Carries A code alternative middle flow after) :
  Carries A code (Lower.branch number condition consequence alternative) before flow after
  := by
  intro rest stack callers final hplace hfinal
  simp only [Lower.branch, List.append_assoc, List.cons_append, List.nil_append] at hplace ⊢
  have hfirst := suffix_of_cons (suffix_of_cons (suffix_of_append hplace))
  have hlabel := suffix_of_cons (suffix_of_append hfirst)
  apply htest
  apply Halts.test_zero hnodup hlabel hzero
  apply h _ _ _ _ (suffix_of_cons hlabel)
  apply hfinal.of_flow
  apply halts_label_iff.mpr

/-- A branch whose condition holds runs its consequence. -/
theorem branch_nonzero (hnodup : (labels code).Nodup)
    (htest : Runs A code condition ([], before) ([value], middle)) (hzero : ¬A.isZero value)
    (h : Carries A code consequence middle flow after) :
  Carries A code (Lower.branch number condition consequence alternative) before flow after
  := by
  intro rest stack callers final hplace hfinal
  simp only [Lower.branch, List.append_assoc, List.cons_append, List.nil_append] at hplace ⊢
  have hfirst := suffix_of_cons (suffix_of_cons (suffix_of_append hplace))
  have hsecond := suffix_of_cons (suffix_of_cons (suffix_of_append hfirst))
  have hlabel := suffix_of_append hsecond
  apply htest
  apply Halts.test_nonzero hzero
  apply h _ _ _ _ hfirst
  apply hfinal.of_flow
  apply Halts.jump hnodup hlabel

/-- A loop whose condition fails is done. -/
theorem loop_zero (hnodup : (labels code).Nodup)
    (htest : Runs A code condition ([], before) ([value], after)) (hzero : A.isZero value) :
  Carries A code (Lower.loop number condition body) before .next after
  := by
  intro rest stack callers final hplace hfinal
  simp only [Lower.loop, List.append_assoc, List.cons_append, List.nil_append] at hplace ⊢
  have hbody := suffix_of_cons (suffix_of_cons (suffix_of_append (suffix_of_cons hplace)))
  have hlabel := suffix_of_cons (suffix_of_append hbody)
  apply halts_label_iff.mpr
  apply htest
  apply Halts.test_zero hnodup hlabel hzero hfinal

/-- A return from the body of a loop leaves the loop. -/
theorem loop_returned
    (htest : Runs A code condition ([], before) ([value], middle)) (hzero : ¬A.isZero value)
    (h : Carries A code body middle .returned after) :
  Carries A code (Lower.loop number condition body) before .returned after
  := by
  intro rest stack callers final hplace hfinal
  simp only [Lower.loop, List.append_assoc, List.cons_append, List.nil_append] at hplace ⊢
  have hbody := suffix_of_cons (suffix_of_cons (suffix_of_append (suffix_of_cons hplace)))
  apply halts_label_iff.mpr
  apply htest
  apply Halts.test_nonzero hzero
  apply h _ _ _ _ hbody hfinal

/-- After one turn a loop starts again. -/
theorem loop_again (hnodup : (labels code).Nodup)
    (htest : Runs A code condition ([], before) ([value], middle)) (hzero : ¬A.isZero value)
    (hturn : Carries A code body middle .next again)
    (h : Carries A code (Lower.loop number condition body) again flow after) :
  Carries A code (Lower.loop number condition body) before flow after
  := by
  intro rest stack callers final hplace hfinal
  have hagain := h rest stack callers final hplace hfinal
  simp only [Lower.loop, List.append_assoc, List.cons_append, List.nil_append] at hplace hagain ⊢
  have hbody := suffix_of_cons (suffix_of_cons (suffix_of_append (suffix_of_cons hplace)))
  apply halts_label_iff.mpr
  apply htest
  apply Halts.test_nonzero hzero
  apply hturn _ _ _ _ hbody
  apply Halts.jump hnodup hplace
  apply halts_label_iff.mp hagain

end Carries

end Machine

/-! ### The simulation -/

/-- The code is that of a program and `root` is the unfolding of its tree: every function that may
be called with the given number of arguments has its code in its place. -/
structure Linked (vars funcs : SymbolTable) (entry : Nat) (root : Unfolding) (code : List Line)
    (callable : List (Nat × Nat)) : Prop where
  nodup : (labels code).Nodup
  function : ∀ {index count : Nat} {body parameters : Unfolding}, (index, count) ∈ callable →
    root.function? index = some (body, parameters) →
    ∃ (d : Definition) (numbering : Numbering) (after : List Line),
      d.label funcs entry = Lower.target entry index
      ∧ d.parameters.length = count
      ∧ parameters.Shows (.chain (d.parameters.map (variableShape vars)))
      ∧ body.Shows (.chain (Statement.shapes vars funcs d.body))
      ∧ (Shape.chain (Statement.shapes vars funcs d.body)).collect Shape.callAt ⊆ callable
      ∧ (d.code vars funcs entry numbering).1 ++ after <:+ code

section Simulation

open Machine

variable {V : Type} {A : Arithmetic V} {vars funcs : SymbolTable} {entry : Nat} {root : Unfolding}
  {code : List Line} {callable : List (Nat × Nat)}

/-- The code of expressions, calls and statements does what the interpreter does with the given
fuel. -/
structure Simulated (A : Arithmetic V) (vars funcs : SymbolTable) (entry : Nat) (root : Unfolding)
    (code : List Line) (callable : List (Nat × Nat)) (fuel : Nat) : Prop where
  expression : ∀ {e : Expr} {u : Unfolding} {store store' : Store V} {value : V},
    u.Shows (e.shape vars funcs) → (e.shape vars funcs).collect Shape.callAt ⊆ callable →
    Interpret.expression A root fuel u store = some (value, store') →
    Runs A code (e.code vars funcs entry) ([], store) ([value], store')
  expressions : ∀ {es : List Expr} {u : Unfolding} {store store' : Store V} {values : List V},
    u.Shows (.chain (Expr.shapes vars funcs es)) →
    (Shape.chain (Expr.shapes vars funcs es)).collect Shape.callAt ⊆ callable →
    Interpret.expressions A root fuel u store = some (values, store') →
    values.length = es.length
      ∧ Runs A code (Expr.codes vars funcs entry es) ([], store) (values.reverse, store')
  call : ∀ {index : Nat} {es : List Expr} {u : Unfolding} {store store' : Store V},
    u.Shows (.chain (Expr.shapes vars funcs es)) →
    (Shape.chain (Expr.shapes vars funcs es)).collect Shape.callAt ⊆ callable →
    (index, es.length) ∈ callable →
    Interpret.call A root fuel index u store = some store' →
    Runs A code
      (Lower.call entry index (Shape.chain (Expr.shapes vars funcs es)).mentioned
        (Expr.codes vars funcs entry es)) ([], store) ([], store')
  statement : ∀ {s : Statement} {u : Unfolding} {store store' : Store V} {flow : Flow}
    (numbering : Numbering),
    u.Shows (s.shape vars funcs) → (s.shape vars funcs).collect Shape.callAt ⊆ callable →
    Interpret.statement A root fuel u store = some (flow, store') →
    Carries A code (s.code vars funcs entry numbering).1 store flow store'
  statements : ∀ {ss : List Statement} {u : Unfolding} {store store' : Store V} {flow : Flow}
    (numbering : Numbering),
    u.Shows (.chain (Statement.shapes vars funcs ss)) →
    (Shape.chain (Statement.shapes vars funcs ss)).collect Shape.callAt ⊆ callable →
    Interpret.statements A root fuel u store = some (flow, store') →
    Carries A code (Statement.codes vars funcs entry ss numbering).1 store flow store'

namespace Simulated

/-- Nothing is computed without fuel. -/
theorem zero :
  Simulated A vars funcs entry root code callable 0
  := by
  constructor
  · intro e u store store' value _ _ h
    simp [Interpret.expression] at h
  · intro es u store store' values _ _ h
    simp [Interpret.expressions] at h
  · intro index es u store store' _ _ _ h
    simp [Interpret.call] at h
  · intro s u store store' flow numbering _ _ h
    simp [Interpret.statement] at h
  · intro ss u store store' flow numbering _ _ h
    simp [Interpret.statements] at h

variable {fuel : Nat}

/-- Two operands are left on the stack, the second one on top. -/
theorem operands (ih : Simulated A vars funcs entry root code callable fuel) {left right : Expr}
    {u v : Unfolding} {kind : NodeKind} {store middle store' : Store V} {first second : V}
    (hleft : u.Shows (left.shape vars funcs)) (hright : v.Shows (right.shape vars funcs))
    (hcalls : (Shape.node kind (left.shape vars funcs) (right.shape vars funcs)).collect
      Shape.callAt ⊆ callable)
    (hfirst : Interpret.expression A root fuel u store = some (first, middle))
    (hsecond : Interpret.expression A root fuel v middle = some (second, store')) :
  Runs A code (left.code vars funcs entry ++ right.code vars funcs entry) ([], store)
    ([second, first], store')
  := by
  obtain ⟨hcallsLeft, hcallsRight⟩ := Shape.calls_of_node hcalls
  apply (ih.expression hleft hcallsLeft hfirst).append
  apply (ih.expression hright hcallsRight hsecond).frame [first]

/-- The code of an expression pushes the value that is computed with one more unit of fuel. -/
theorem succ_expression (ih : Simulated A vars funcs entry root code callable fuel) :
  ∀ (e : Expr) {u : Unfolding} {store store' : Store V} {value : V},
    u.Shows (e.shape vars funcs) → (e.shape vars funcs).collect Shape.callAt ⊆ callable →
    Interpret.expression A root (fuel + 1) u store = some (value, store') →
    Runs A code (e.code vars funcs entry) ([], store) ([value], store')
  | .number _, _, _, _, _, .node _ _ _, _, h => by
      cases h
      exact .instruction fun _ _ _ => rfl
  | .variable _, _, _, _, _, .node _ _ _, _, h => by
      cases h
      exact .instruction fun _ _ _ => rfl
  | .input _, _, _, _, _, .node _ _ (.node _ _ _), _, h => by
      obtain ⟨⟨value, middle⟩, hread, h⟩ := Option.bind_eq_some_iff.mp h
      cases h
      apply (Runs.input hread _).append
      apply Runs.instruction
      intro rest stack callers
      simp only [perform, Store.set, Function.update_self]
      rfl
  | .call function arguments, _, _, _, _, .node _ .absent hright, hcalls, h => by
      obtain ⟨hcall, harguments⟩ := Shape.calls_of_call hcalls
      obtain ⟨store', hstore, h⟩ := Option.bind_eq_some_iff.mp h
      cases h
      apply (ih.call hright harguments hcall hstore).append
      exact .instruction fun _ _ _ => rfl
  | .math _ operand, _, _, _, _, .node _ _ hright, hcalls, h => by
      obtain ⟨⟨value, store'⟩, hoperand, h⟩ := Option.bind_eq_some_iff.mp h
      cases h
      apply (ih.expression hright hcalls hoperand).append
      exact .instruction fun _ _ _ => rfl
  | .arithmetic _ left right, _, _, _, _, .node _ hleft hright, hcalls, h => by
      obtain ⟨⟨first, middle⟩, hfirst, h⟩ := Option.bind_eq_some_iff.mp h
      obtain ⟨⟨second, store'⟩, hsecond, h⟩ := Option.bind_eq_some_iff.mp h
      cases h
      apply (ih.operands hleft hright hcalls hfirst hsecond).append
      exact .instruction fun _ _ _ => rfl
  | .comparison _ left right, _, _, _, _, .node _ hleft hright, hcalls, h => by
      obtain ⟨⟨first, middle⟩, hfirst, h⟩ := Option.bind_eq_some_iff.mp h
      obtain ⟨⟨second, store'⟩, hsecond, h⟩ := Option.bind_eq_some_iff.mp h
      cases h
      apply (ih.operands hleft hright hcalls hfirst hsecond).append
      exact .instruction fun _ _ _ => rfl

/-- The code of arguments pushes the values that are computed with one more unit of fuel, the last
one on top. -/
theorem succ_expressions (ih : Simulated A vars funcs entry root code callable fuel) :
  ∀ (es : List Expr) {u : Unfolding} {store store' : Store V} {values : List V},
    u.Shows (.chain (Expr.shapes vars funcs es)) →
    (Shape.chain (Expr.shapes vars funcs es)).collect Shape.callAt ⊆ callable →
    Interpret.expressions A root (fuel + 1) u store = some (values, store') →
    values.length = es.length
      ∧ Runs A code (Expr.codes vars funcs entry es) ([], store) (values.reverse, store')
  | [], _, _, _, _, .absent, _, h => by
      cases h
      use rfl
      apply Runs.nil
  | e :: es, _, _, _, _, .node _ hitem hnext, hcalls, h => by
      obtain ⟨hcallsItem, hcallsNext⟩ := Shape.calls_of_node hcalls
      obtain ⟨⟨value, middle⟩, hvalue, h⟩ := Option.bind_eq_some_iff.mp h
      obtain ⟨⟨values, store'⟩, hvalues, h⟩ := Option.bind_eq_some_iff.mp h
      cases h
      obtain ⟨hlength, hothers⟩ := ih.expressions hnext hcallsNext hvalues
      constructor
      · rw [List.length_cons, List.length_cons, hlength]
      · rw [List.reverse_cons]
        apply (ih.expression hitem hcallsItem hvalue).append (hothers.frame [value])

/-- Statements that end with a return never go on. -/
theorem returned_of_endsWithReturn {flow : Flow} :
  ∀ (ss : List Statement) (fuel : Nat) {u : Unfolding} {store store' : Store V},
    u.Shows (.chain (Statement.shapes vars funcs ss)) → Statement.endsWithReturn ss →
    Interpret.statements A root fuel u store = some (flow, store') →
    flow = .returned
  | _, 0, _, _, _, _, _, h => by simp [Interpret.statements] at h
  | [], _, _, _, _, _, hends, _ => by cases hends
  | s :: ss, fuel + 1, _, _, _, .node _ hitem hnext, hends, h => by
      obtain ⟨⟨flow', middle⟩, hfirst, h⟩ := Option.bind_eq_some_iff.mp h
      cases flow' with
      | returned =>
        cases h
        rfl
      | next =>
        cases ss with
        | nil =>
          cases s <;> cases hends
          cases hitem with
          | node id hleft hright =>
            cases fuel with
            | zero => simp [Interpret.statement] at hfirst
            | succ fuel =>
              obtain ⟨⟨value, store'⟩, hvalue, hfirst⟩ := Option.bind_eq_some_iff.mp hfirst
              cases hfirst
        | cons s' ss =>
          apply returned_of_endsWithReturn (s' :: ss) fuel hnext _ h
          rwa [Statement.endsWithReturn, List.getLast?_cons_cons] at hends

/-- The slots of parameters are the positions of their names. -/
theorem filterMap_slot? {names : List String} {u : Unfolding}
    (h : u.Shows (.chain (names.map (variableShape vars)))) :
  u.items.filterMap Unfolding.slot? = names.map (variableSlot vars)
  := by
  induction names generalizing u with
  | nil =>
    cases h
    rfl
  | cons name names ih =>
    cases h with
    | node id hleft hright =>
      cases hleft with
      | node other hl hr =>
        rw [Unfolding.items, List.filterMap_cons, ih hright]
        rfl

/-- A call of a function takes the arguments off the stack, runs the body and goes back. -/
theorem runs_function {d : Definition} {numbering : Numbering} {after : List Line}
    {values : List V} {store store' : Store V} {flow : Flow} (hnodup : (labels code).Nodup)
    (hplace : (d.code vars funcs entry numbering).1 ++ after <:+ code)
    (hlength : values.length = d.parameters.length)
    (hbody : Carries A code (Statement.codes vars funcs entry d.body numbering).1
      (store.bind (d.parameters.map (variableSlot vars)) values) flow store')
    (hflow : Statement.endsWithReturn d.body → flow = .returned) :
  Runs A code [.instruction (.call (d.label funcs entry))] (values.reverse, store) ([], store')
  := by
  intro rest stack callers final hfinal
  have hret : ∀ rest',
      Halts A code ⟨.instruction .ret :: rest', stack, rest :: callers, store'⟩ final :=
    fun rest' => Halts.of_step rfl hfinal
  simp only [Definition.code, List.append_assoc, List.cons_append] at hplace
  apply Halts.call hnodup hplace
  apply Runs.parameters _ values _ (by rw [List.length_map, hlength])
  apply hbody _ _ _ _ (suffix_of_append (suffix_of_cons hplace))
  cases flow with
  | returned => apply hret
  | next =>
    have hends : ¬ Statement.endsWithReturn d.body := by
      intro hends
      cases hflow hends
    rw [if_neg hends]
    apply hret

/-- The code of a call does what is computed with one more unit of fuel: it saves slots, goes
through the code of the function, and restores the slots. -/
theorem succ_call (hlinked : Linked vars funcs entry root code callable)
    (ih : Simulated A vars funcs entry root code callable fuel) {index : Nat} {es : List Expr}
    {u : Unfolding} {before after : Store V} (hshows : u.Shows (.chain (Expr.shapes vars funcs es)))
    (hcalls : (Shape.chain (Expr.shapes vars funcs es)).collect Shape.callAt ⊆ callable)
    (hindex : (index, es.length) ∈ callable)
    (h : Interpret.call A root (fuel + 1) index u before = some after) :
  Runs A code
    (Lower.call entry index (Shape.chain (Expr.shapes vars funcs es)).mentioned
      (Expr.codes vars funcs entry es)) ([], before) ([], after)
  := by
  obtain ⟨⟨body, parameters⟩, hfunction, h⟩ := Option.bind_eq_some_iff.mp h
  obtain ⟨⟨values, store⟩, hvalues, h⟩ := Option.bind_eq_some_iff.mp h
  obtain ⟨⟨flow, store'⟩, hbody, h⟩ := Option.bind_eq_some_iff.mp h
  cases h
  obtain ⟨d, numbering, rest, hlabel, hcount, hparameters, hshowsBody, hcallsBody, hplace⟩ :=
    hlinked.function hindex hfunction
  obtain ⟨hlength, harguments⟩ := ih.expressions hshows hcalls hvalues
  rw [filterMap_slot? hparameters] at hbody
  have hcall := runs_function hlinked.nodup hplace (hlength.trans hcount.symm)
    (ih.statements numbering hshowsBody hcallsBody hbody)
    (fun hends => returned_of_endsWithReturn d.body fuel hshowsBody hends hbody)
  rw [Unfolding.mentioned_eq, hshows.shape_eq, ← Store.restore_reverse, Lower.call, ← hlabel]
  generalize (Shape.chain (Expr.shapes vars funcs es)).mentioned = saved
  have hrestores : Runs A code (saved.reverse.map fun slot => .instruction (.store slot))
      ((saved.map before.slots).reverse, store')
      ([], store'.restore saved.reverse before.slots) := by
    rw [← List.map_reverse]
    apply Runs.restores
  apply ((Runs.loads saved before).append (harguments.frame _)).append
  apply (hcall.frame _).append hrestores

/-- The code of a statement does what is computed with one more unit of fuel. -/
theorem succ_statement (hlinked : Linked vars funcs entry root code callable)
    (ih : Simulated A vars funcs entry root code callable fuel) :
  ∀ (s : Statement) {u : Unfolding} {store store' : Store V} {flow : Flow} (numbering : Numbering),
    u.Shows (s.shape vars funcs) → (s.shape vars funcs).collect Shape.callAt ⊆ callable →
    Interpret.statement A root (fuel + 1) u store = some (flow, store') →
    Carries A code (s.code vars funcs entry numbering).1 store flow store'
  | .assign target value, _, _, _, _, _, .node _ (.node _ _ _) hright, hcalls, h => by
      obtain ⟨⟨value, middle⟩, hvalue, h⟩ := Option.bind_eq_some_iff.mp h
      cases h
      apply Carries.of_runs
      apply (ih.expression hright (Shape.calls_of_node hcalls).2 hvalue).append
      apply Runs.store
  | .branch condition consequence alternative, _, _, _, _, numbering,
      .node _ htest (.node _ hfirst hsecond), hcalls, h => by
      obtain ⟨hcallsTest, hcallsArms⟩ := Shape.calls_of_node hcalls
      obtain ⟨hcallsFirst, hcallsSecond⟩ := Shape.calls_of_node hcallsArms
      obtain ⟨⟨value, middle⟩, hvalue, h⟩ := Option.bind_eq_some_iff.mp h
      have hruns := ih.expression htest hcallsTest hvalue
      by_cases hzero : A.isZero value
      · simp only [hzero, if_true] at h
        apply Carries.branch_zero hlinked.nodup hruns hzero
        apply ih.statements _ hsecond hcallsSecond h
      · simp only [hzero, Bool.false_eq_true, if_false] at h
        apply Carries.branch_nonzero hlinked.nodup hruns hzero
        apply ih.statements _ hfirst hcallsFirst h
  | .loop condition body, _, _, _, _, numbering, .node _ htest (.node _ hbody hno), hcalls, h => by
      obtain ⟨hcallsTest, hcallsArms⟩ := Shape.calls_of_node hcalls
      have hcallsBody := (Shape.calls_of_node hcallsArms).1
      obtain ⟨⟨value, middle⟩, hvalue, h⟩ := Option.bind_eq_some_iff.mp h
      have hruns := ih.expression htest hcallsTest hvalue
      by_cases hzero : A.isZero value
      · simp only [hzero, if_true] at h
        cases h
        apply Carries.loop_zero hlinked.nodup hruns hzero
      · simp only [hzero, Bool.false_eq_true, if_false] at h
        obtain ⟨⟨flow', again⟩, hturn, h⟩ := Option.bind_eq_some_iff.mp h
        have hcarries := ih.statements { numbering with loops := numbering.loops + 1 } hbody
          hcallsBody hturn
        cases flow' with
        | returned =>
          cases h
          apply Carries.loop_returned hruns hzero hcarries
        | next =>
          -- What is left to do is the same loop, with less fuel.
          apply Carries.loop_again hlinked.nodup hruns hzero hcarries
          apply ih.statement (s := .loop condition body) numbering
            (.node _ htest (.node _ hbody hno)) hcalls h
  | .call function arguments, _, _, _, _, _, .node _ .absent hright, hcalls, h => by
      obtain ⟨hcall, harguments⟩ := Shape.calls_of_call hcalls
      obtain ⟨store', hstore, h⟩ := Option.bind_eq_some_iff.mp h
      cases h
      apply Carries.of_runs
      apply ih.call hright harguments hcall hstore
  | .ret value, _, _, _, _, _, .node _ _ hright, hcalls, h => by
      obtain ⟨⟨value, middle⟩, hvalue, h⟩ := Option.bind_eq_some_iff.mp h
      cases h
      apply Carries.ret (ih.expression hright (Shape.calls_of_node hcalls).2 hvalue)
  | .output op value, _, _, _, _, _, .node _ _ hright, hcalls, h => by
      obtain ⟨⟨value, middle⟩, hvalue, h⟩ := Option.bind_eq_some_iff.mp h
      cases h
      apply Carries.of_runs
      apply (ih.expression hright (Shape.calls_of_node hcalls).2 hvalue).append
      exact .instruction fun _ _ _ => rfl
  | .input target, _, _, _, _, _, .node _ _ (.node _ _ _), _, h => by
      obtain ⟨⟨value, middle⟩, hread, h⟩ := Option.bind_eq_some_iff.mp h
      cases h
      apply Carries.of_runs
      apply Runs.input hread

/-- The code of statements does what is computed with one more unit of fuel. -/
theorem succ_statements (ih : Simulated A vars funcs entry root code callable fuel) :
  ∀ (ss : List Statement) {u : Unfolding} {store store' : Store V} {flow : Flow}
    (numbering : Numbering),
    u.Shows (.chain (Statement.shapes vars funcs ss)) →
    (Shape.chain (Statement.shapes vars funcs ss)).collect Shape.callAt ⊆ callable →
    Interpret.statements A root (fuel + 1) u store = some (flow, store') →
    Carries A code (Statement.codes vars funcs entry ss numbering).1 store flow store'
  | [], _, _, _, _, _, .absent, _, h => by
      cases h
      apply Carries.of_runs
      apply Runs.nil
  | s :: ss, _, _, _, _, numbering, .node _ hitem hnext, hcalls, h => by
      obtain ⟨hcallsItem, hcallsNext⟩ := Shape.calls_of_node hcalls
      obtain ⟨⟨flow', middle⟩, hfirst, h⟩ := Option.bind_eq_some_iff.mp h
      have hcarries := ih.statement numbering hitem hcallsItem hfirst
      cases flow' with
      | returned =>
        cases h
        apply hcarries.append_returned
      | next =>
        apply hcarries.append
        apply ih.statements _ hnext hcallsNext h

/-- The code does what the interpreter does with any fuel. -/
theorem all (hlinked : Linked vars funcs entry root code callable) (fuel : Nat) :
  Simulated A vars funcs entry root code callable fuel
  := by
  -- Calls and loops run syntax that is no part of their own, so only the fuel gets smaller.
  induction fuel with
  | zero => apply Simulated.zero
  | succ fuel ih =>
    constructor
    · apply succ_expression ih
    · apply succ_expressions ih
    · exact succ_call hlinked ih
    · apply succ_statement hlinked ih
    · apply succ_statements ih

end Simulated

end Simulation

end StackCompiler
