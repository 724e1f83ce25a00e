import StackCompiler.Proofs.Assembly.Steering
import StackCompiler.Proofs.Compile.Sources

/-!
# Nested branches and loops

The branches and loops of a source are counted by its tokens.  Each of them has its four lines in
the code, in order, and the intervals of line numbers from the first to the last of these lines are
disjoint or nested.
-/

namespace StackCompiler

/-! ### Numbers by tokens -/

/-- The first token is counted if it is the keyword. -/
theorem TokenKind.count_control_cons (op op' : ControlOp) (tokens : List TokenKind) :
  (.control op' :: tokens).count (.control op)
    = tokens.count (.control op) + if op' = op then 1 else 0
  := by
  simp [List.count_cons]

mutual

/-- No branch or loop stands in an expression. -/
theorem Expr.count_control (op : ControlOp) :
  ∀ (e : Expr), e.symbols.count (.control op) = 0
  | .number _ => rfl
  | .variable _ => rfl
  | .input _ => rfl
  | .call _ arguments => by
      rw [Expr.symbols, List.count_cons, Expr.count_control_all op arguments]
      rfl
  | .math _ operand => by
      rw [Expr.symbols, List.count_cons, operand.count_control op]
      rfl
  | .arithmetic _ left right => by
      rw [Expr.symbols, List.count_append, List.count_cons, left.count_control op,
        right.count_control op]
      rfl
  | .comparison _ left right => by
      rw [Expr.symbols, List.count_append, List.count_cons, left.count_control op,
        right.count_control op]
      rfl

/-- No branch or loop stands in expressions. -/
theorem Expr.count_control_all (op : ControlOp) :
  ∀ (es : List Expr), (Expr.symbolsOfAll es).count (.control op) = 0
  | [] => rfl
  | e :: es => by
      rw [Expr.symbolsOfAll, List.count_append, e.count_control op, Expr.count_control_all op es]

end

section Numbers

variable (vars funcs : SymbolTable) (entry : Nat) (op : ControlOp)

mutual

/-- A statement takes a number for each branch or loop that its tokens begin. -/
theorem Statement.next_code :
  ∀ (s : Statement) (numbering : Numbering),
    (s.code vars funcs entry numbering).2.next op
      = numbering.next op + s.symbols.count (.control op)
  | .assign _ value, numbering => by
      rw [Statement.symbols, List.count_cons, List.count_cons, value.count_control op]
      rfl
  | .branch condition consequence alternative, numbering => by
      have hadvance := numbering.next_advance .branch op
      have hfirst := Statement.next_codes consequence (numbering.advance .branch)
      have hsecond := Statement.next_codes alternative
        (Statement.codes vars funcs entry consequence (numbering.advance .branch)).2
      rw [Statement.symbols, TokenKind.count_control_cons, List.count_append, List.count_append,
        condition.count_control op]
      apply hsecond.trans
      omega
  | .loop condition body, numbering => by
      have hadvance := numbering.next_advance .loop op
      have hbody := Statement.next_codes body (numbering.advance .loop)
      rw [Statement.symbols, TokenKind.count_control_cons, List.count_append,
        condition.count_control op]
      apply hbody.trans
      omega
  | .call _ arguments, numbering => by
      rw [Statement.symbols, List.count_cons, Expr.count_control_all op arguments]
      rfl
  | .ret value, numbering => by
      rw [Statement.symbols, List.count_cons, value.count_control op]
      rfl
  | .output _ value, numbering => by
      rw [Statement.symbols, List.count_cons, value.count_control op]
      rfl
  | .input _, numbering => rfl

/-- The code of statements takes as many numbers as they have keywords. -/
theorem Statement.next_codes :
  ∀ (ss : List Statement) (numbering : Numbering),
    (Statement.codes vars funcs entry ss numbering).2.next op
      = numbering.next op + (Statement.symbolsOfAll ss).count (.control op)
  | [], numbering => rfl
  | s :: ss, numbering => by
      rw [Statement.codes, Statement.next_codes ss, s.next_code, Statement.symbolsOfAll,
        List.count_append, Nat.add_assoc]

end

/-- The keywords of a function are those of its body. -/
theorem Definition.count_control_symbols (d : Definition) :
  d.symbols.count (.control op) = (Statement.symbolsOfAll d.body).count (.control op)
  := by
  have hparameters : (d.parameters.map TokenKind.variable).count (.control op) = 0 := by
    rw [List.count_eq_zero]
    simp
  rw [Definition.symbols, List.count_append, hparameters, Nat.zero_add]

/-- The code of functions takes as many numbers as they have keywords. -/
theorem Definition.next_codes (ds : List Definition) (numbering : Numbering) :
  (Definition.codes vars funcs entry ds numbering).2.next op
    = numbering.next op + (ds.flatMap (·.symbols)).count (.control op)
  := by
  induction ds generalizing numbering with
  | nil => rfl
  | cons d ds ih =>
    rw [Definition.codes, ih, Definition.code, Statement.next_codes, List.flatMap_cons,
      List.count_append, d.count_control_symbols, Nat.add_assoc]

/-- The code of a program takes as many numbers as it has keywords. -/
theorem Definition.next_programCode (first : Definition) (others : List Definition)
    (numbering : Numbering) :
  (Definition.programCode vars funcs first others numbering).2.next op
    = numbering.next op + ((first :: others).flatMap (·.symbols)).count (.control op)
  := by
  rw [Definition.programCode, Statement.next_codes, Definition.next_codes, List.flatMap_cons,
    List.count_append, first.count_control_symbols, Nat.add_assoc]
  apply congrArg (numbering.next op + ·) (Nat.add_comm _ _)

end Numbers

/-! ### Line intervals -/

/-- A line stands before another if it does so among some of the lines. -/
theorem idxOf_lt_of_filter {p : Line → Bool} {code front back : List Line} {line line' : Line}
    (h : code.filter p = front ++ back) (hline : line ∈ front) (hp : p line')
    (hnot : line' ∉ front) :
  code.idxOf line < code.idxOf line'
  := by
  obtain ⟨before, after, rfl, rfl, -⟩ := List.filter_eq_append_iff.mp h
  have hmem := (List.mem_filter.mp hline).1
  have hnot' : line' ∉ before := fun hmem' => hnot (List.mem_filter.mpr ⟨hmem', hp⟩)
  have hlt := List.idxOf_lt_length_of_mem hmem
  rw [List.idxOf_append_of_mem hmem, List.idxOf_append_of_notMem hnot']
  omega

namespace Construct

/-- The line numbers of the first and the last line that steer a branch or a loop. -/
def interval (code : List Line) (x : Construct) : Nat × Nat :=
  (code.idxOf x.opening, code.idxOf x.closing)

variable {x y : Construct} {front back code : List Line}

/-- The first part of the lines, if it is not empty, has the one that opens. -/
theorem opening_mem (h : front ++ back = x.steering) (hfront : front ≠ []) :
  x.opening ∈ front
  := by
  have hhead : x.steering.head? = some x.opening := by rw [steering_eq, List.head?_cons]
  rw [← h, List.head?_append_of_ne_nil _ hfront] at hhead
  apply List.mem_of_head? hhead

/-- The last part of the lines, if it is not empty, has the one that closes. -/
theorem closing_mem (h : front ++ back = x.steering) (hback : back ≠ []) :
  x.closing ∈ back
  := by
  have hlast : x.steering.getLast? = some x.closing := by
    obtain ⟨op, number⟩ := x
    cases op <;> rfl
  rw [← h, List.getLast?_append_of_ne_nil _ hback] at hlast
  apply List.mem_of_getLast? hlast

/-- The line that opens is one of the lines. -/
theorem opening_mem_steering (x : Construct) :
  x.opening ∈ x.steering
  := opening_mem (List.append_nil _) (by rw [steering_eq]; apply List.cons_ne_nil)

/-- The line that closes is one of the lines. -/
theorem closing_mem_steering (x : Construct) :
  x.closing ∈ x.steering
  := closing_mem (List.nil_append _) (by rw [steering_eq]; apply List.cons_ne_nil)

/-- The lines of a branch or a loop come before those of another. -/
theorem interval_lt (hne : x ≠ y) (h : steeringEither x y code = x.steering ++ y.steering) :
  (x.interval code).2 < (y.interval code).1
  := by
  have hsteers := steers_of_mem_steering y.opening_mem_steering
  apply idxOf_lt_of_filter h x.closing_mem_steering
  · rw [hsteers, Bool.or_true]
  · apply not_mem_steering hne y.opening_mem_steering

/-- The lines of a branch or a loop stand between two lines of another. -/
theorem interval_nested (hne : x ≠ y) (hsteering : front ++ back = x.steering)
    (hfront : front ≠ []) (hback : back ≠ [])
    (h : steeringEither x y code = front ++ y.steering ++ back) :
  (x.interval code).1 < (y.interval code).1 ∧ (y.interval code).2 < (x.interval code).2
  := by
  have hclosing := closing_mem hsteering hback
  have hnodup := x.nodup_steering
  rw [← hsteering] at hnodup
  constructor
  · have hsteers := steers_of_mem_steering y.opening_mem_steering
    rw [List.append_assoc] at h
    apply idxOf_lt_of_filter h (opening_mem hsteering hfront)
    · rw [hsteers, Bool.or_true]
    · intro hmem
      apply not_mem_steering hne y.opening_mem_steering
      rw [← hsteering]
      apply List.mem_append_left _ hmem
  · have hsteers := steers_of_mem_steering x.closing_mem_steering
    apply idxOf_lt_of_filter h (List.mem_append_right _ y.closing_mem_steering)
    · rw [hsteers, Bool.true_or]
    · rw [List.mem_append, not_or]
      constructor
      · exact fun hmem => List.disjoint_of_nodup_append hnodup hmem hclosing
      · apply not_mem_steering hne.symm x.closing_mem_steering

end Construct

/-- Two intervals have nothing in common, or one lies within the other. -/
def DisjointOrNested (interval interval' : Nat × Nat) : Prop :=
  interval.2 < interval'.1 ∨ interval'.2 < interval.1
    ∨ (interval.1 < interval'.1 ∧ interval'.2 < interval.2)
    ∨ (interval'.1 < interval.1 ∧ interval.2 < interval'.2)

/-- The intervals of two branches or loops are disjoint or nested if their lines are arranged so. -/
theorem Arranged.disjointOrNested {x y : Construct} {code lines : List Line} (hne : x ≠ y)
    (h : Arranged x y lines) (hlines : steeringEither x y code = lines) :
  DisjointOrNested (x.interval code) (y.interval code)
  := by
  have hlines' := (steeringEither_comm y x code).trans hlines
  cases h with
  | before => exact .inl (Construct.interval_lt hne hlines)
  | after => exact .inr (.inl (Construct.interval_lt hne.symm hlines'))
  | around h hfront hback =>
    exact .inr (.inr (.inl (Construct.interval_nested hne h hfront hback hlines)))
  | within h hfront hback =>
    exact .inr (.inr (.inr (Construct.interval_nested hne.symm h hfront hback hlines')))

/-! ### The code of a source -/

/-- Of what belongs to a branch or a loop, nothing is lost among its lines. -/
theorem count_filterMap_of_steers {f : Line → Option Label} {label : Label} {x : Construct}
    (h : ∀ line, f line = some label → x.steers line) (code : List Line) :
  (code.filterMap f).count label = ((code.filter x.steers).filterMap f).count label
  := by
  rw [List.count_filterMap, List.count_filterMap, List.countP_filter]
  apply List.countP_congr
  intro line _
  rw [Bool.and_eq_true, beq_iff_eq]
  exact ⟨fun hline => ⟨hline, h line hline⟩, And.left⟩

section Counts

variable {label : Label} {x : Construct} (h : label.construct? = some x)

include h

/-- A label is counted among the lines of its branch or loop. -/
theorem count_labels_filter_steers (code : List Line) :
  (labels code).count label = (labels (code.filter x.steers)).count label
  := by
  apply count_filterMap_of_steers
  intro line hline
  rw [Construct.steers_iff]
  cases line <;> cases hline
  exact h

/-- The jumps to a label are counted among the lines of its branch or loop. -/
theorem count_jumpTargets_filter_steers (code : List Line) :
  (jumpTargets code).count label = (jumpTargets (code.filter x.steers)).count label
  := by
  apply count_filterMap_of_steers
  intro line hline
  rw [Construct.steers_iff]
  cases line with
  | label l => cases hline
  | instruction i =>
    have htarget : i.jumpTarget? = some label := hline
    rw [Line.construct?, htarget, Option.bind_some, h]

/-- A label of a branch or a loop occurs once. -/
theorem count_labels_steering :
  (labels x.steering).count label = 1
  := by
  cases label <;> cases h <;> simp [Construct.steering]

/-- There is one jump to a label of a branch or a loop. -/
theorem count_jumpTargets_steering :
  (jumpTargets x.steering).count label = 1
  := by
  cases label <;> cases h <;> simp [Construct.steering]

end Counts

/-- Which branches and loops stand in code, given how many there are of each, and how their lines
stand to each other. -/
structure ControlFlow (count : ControlOp → Nat) (code : List Line) : Prop where
  labels : ∀ label x, label.construct? = some x →
    (labels code).count label = if x.number < count x.op then 1 else 0
  jumps : ∀ label x, label.construct? = some x →
    (jumpTargets code).count label = if x.number < count x.op then 1 else 0
  openings : ∀ op, openings op code = List.range (count op)
  steering : ∀ x : Construct, x.number < count x.op → code.filter x.steers = x.steering
  intervals : ∀ x y : Construct, x.number < count x.op → y.number < count y.op → x ≠ y →
    DisjointOrNested (x.interval code) (y.interval code)

/-- Code that is steered has the labels and jumps of its branches and loops, and no others of that
kind. -/
theorem Steered.controlFlow {stop : Numbering} {code : List Line} (h : Steered {} stop code) :
  ControlFlow stop.next code
  := by
  have hbetween (x : Construct) : x.IsBetween {} stop ↔ x.number < stop.next x.op := by
    obtain ⟨op, number⟩ := x
    cases op <;> exact and_iff_right (Nat.zero_le _)
  constructor
  · intro label x hlabel
    rw [count_labels_filter_steers hlabel, h.steering]
    simp only [hbetween]
    split
    · apply count_labels_steering hlabel
    · rfl
  · intro label x hlabel
    rw [count_jumpTargets_filter_steers hlabel, h.steering]
    simp only [hbetween]
    split
    · apply count_jumpTargets_steering hlabel
    · rfl
  · intro op
    rw [h.opened, List.range_eq_range']
    cases op <;> rfl
  · intro x hx
    apply h.steering_of_isBetween ((hbetween x).mpr hx)
  · intro x y hx hy hne
    apply (h.arranged x y hne ((hbetween x).mpr hx) ((hbetween y).mpr hy)).disjointOrNested hne rfl

/-- The branches and loops of a source are numbered in the order of their lines.  Each label stands
once and is the target of one jump, the lines of each branch and loop stand in the same order, and
two of them are apart or nested. -/
theorem compile_controlFlow {source entry : String} {c : Compilation}
    (h : (compile source entry).result = .ok c) :
  ∃ tokens code, Token.scan source = .ok tokens ∧ c.HasCode code
    ∧ ControlFlow (fun op => (tokens.map (·.kind)).count (.control op)) code
  := by
  obtain ⟨tokens, program, first, others, hscan, hspelled, -, heq, -, hcode⟩ := compile_program h
  refine ⟨tokens, _, hscan, hcode, ?_⟩
  obtain ⟨calls, hform, -⟩ := @Definition.programCode_form c.tree.vars c.tree.funcs _ first others
    (fun d hd => Definition.collect_body_subset hd) {}
  have hperm := program.entryFirst_perm entry
  rw [heq] at hperm
  have hcount : (Definition.programCode c.tree.vars c.tree.funcs first others {}).2.next
      = fun op => (tokens.map (·.kind)).count (.control op) := by
    funext op
    rw [Definition.next_programCode, (hperm.flatMap_right _).count_eq,
      hspelled.count_eq (.control op) rfl]
    cases op <;> apply Nat.zero_add
  rw [← hcount]
  apply hform.steered.controlFlow

/-- The code of a program with calls in a loop has the control flow of its keywords. -/
theorem compile_controlFlow_callsInLoop :
  ∃ c, (compile callsInLoop "main").result = .ok c
    ∧ ∃ tokens code, Token.scan callsInLoop = .ok tokens ∧ c.HasCode code
      ∧ ControlFlow (fun op => (tokens.map (·.kind)).count (.control op)) code
  := by
  obtain ⟨c, hc⟩ := exists_compile_callsInLoop
  exact ⟨c, hc, compile_controlFlow hc⟩

end StackCompiler
