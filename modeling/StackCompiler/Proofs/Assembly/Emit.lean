import StackCompiler.Assembly.Generate

/-!
# Relations between emissions

What the generator does is put together from few things: lines are added, branches and loops are
numbered, and one piece of work follows another.  A relation between pieces of work that is kept by
each of these holds between the work of one generator and that of another, if their walks are
related.  The case analysis over the kinds of nodes is made here once, for all such relations.
-/

namespace StackCompiler

/-- Whether a label has the number of a branch or of a loop. -/
def Label.isNumbered : Label → Bool
  | .main | .function _ => false
  | .branchFalse _ | .branchTrue _ | .loopTrue _ | .loopFalse _ => true

/-- Whether an instruction refers to a numbered label. -/
def Instruction.isNumbered : Instruction → Bool
  | .jump target | .jumpIfEqual target | .call target => target.isNumbered
  | _ => false

/-- The label of a function has no number of a branch or a loop. -/
theorem Lower.isNumbered_target (entry index : Nat) :
  (target entry index).isNumbered = false
  := by
  unfold target
  split <;> rfl

namespace Emit

/-! ### Outcomes -/

/-- What a piece of work comes to, apart from the events that it reports. -/
def outcome {α : Type} (m : Emit α) (listing : Listing) : Except CompileError (α × Listing) :=
  (m listing).result

section Outcomes

variable {α β : Type} (listing : Listing)

/-- Work after other work starts with the listing that the other work leaves, if there is one. -/
@[simp]
theorem outcome_bind (m : Emit α) (k : α → Emit β) :
  outcome (m >>= k) listing
    = match outcome m listing with
      | .ok (a, listing) => outcome (k a) listing
      | .error error => .error error
  := by
  change (Run.andThen (m listing) fun p => k p.1 p.2).result = _
  unfold Run.andThen outcome
  cases (m listing).result <;> rfl

/-- Nothing comes after an error. -/
theorem fail_bind (error : LoweringError) (k : α → Emit β) :
  fail error >>= k = fail error
  := rfl

end Outcomes

/-! ### Compatible relations -/

/-- A relation between pieces of work that is kept by all that they are put together from. -/
structure Compatible (R : (α : Type) → Emit α → Emit α → Prop) : Prop where
  pure {α : Type} (a : α) : R α (pure a) (pure a)
  bind {α β : Type} {m m' : Emit α} {k k' : α → Emit β} :
    R α m m' → (∀ a, R β (k a) (k' a)) → R β (m >>= k) (m' >>= k')
  fail {α : Type} (error : LoweringError) : R α (fail error) (fail error)
  report (events : List Event) : R Unit (report events) (report events)
  instruction {i : Instruction} : i.isNumbered = false → R Unit (instruction i) (instruction i)
  label {l : Label} : l.isNumbered = false → R Unit (label l) (label l)
  branch {condition condition' consequence consequence' alternative alternative' : Emit Unit} :
    R Unit condition condition' → R Unit consequence consequence' →
      R Unit alternative alternative' →
      R Unit (branch condition consequence alternative)
        (branch condition' consequence' alternative')
  loop {condition condition' body body' : Emit Unit} :
    R Unit condition condition' → R Unit body body' →
      R Unit (loop condition body) (loop condition' body')

namespace Compatible

variable {R : (α : Type) → Emit α → Emit α → Prop} (hR : Compatible R) {α : Type}

include hR

/-- A result or an error that is at hand stands in the relation to itself. -/
theorem ofExcept (x : Except LoweringError α) :
  R α (ofExcept x) (ofExcept x)
  := by
  cases x with
  | ok a => exact hR.pure a
  | error error => exact hR.fail error

/-- Instructions without numbers, one for each slot, stand in the relation to themselves. -/
theorem forM (slots : List Nat) {f : Nat → Instruction} (hf : ∀ slot, (f slot).isNumbered = false) :
  R Unit (slots.forM fun slot => Emit.instruction (f slot))
    (slots.forM fun slot => Emit.instruction (f slot))
  := by
  induction slots with
  | nil => exact hR.pure ()
  | cons slot slots ih => exact hR.bind (hR.instruction (hf slot)) fun _ => ih

/-- Work along a link stands in the relation if the work at each node does. -/
theorem along {act act' : NodeId → Emit (List α)} (h : ∀ id, R _ (act id) (act' id))
    (link : Option NodeId) :
  R _ (along act link) (along act' link)
  := by
  cases link with
  | none => exact hR.pure []
  | some id => exact h id

/-- Work that begins with that on a child is related if all its parts are. -/
theorem operand {value value' : NodeId → Emit Unit} (hvalue : ∀ id, R _ (value id) (value' id))
    (id : NodeId) (link : Option NodeId) {k k' : Unit → Emit Unit} (hk : ∀ a, R _ (k a) (k' a)) :
  R _ (Emit.ofExcept (Tree.expectChild id link) >>= fun child => value child >>= k)
    (Emit.ofExcept (Tree.expectChild id link) >>= fun child => value' child >>= k')
  := hR.bind (hR.ofExcept _) fun child => hR.bind (hvalue child) hk

/-- Walks are related if their steps are. -/
theorem walk (root : NodeId) {step step' : (NodeId → Emit α) → NodeId → Emit α}
    (h : ∀ f f', (∀ id, R α (f id) (f' id)) → ∀ id, R α (step f id) (step' f' id))
    (reach : Nat) (id : NodeId) :
  R α (walk root step reach id) (walk root step' reach id)
  := by
  induction reach generalizing id with
  | zero => exact hR.fail _
  | succ reach ih => exact h _ _ ih id

end Compatible

end Emit

namespace Generator

open Emit

variable {R : (α : Type) → Emit α → Emit α → Prop} (hR : Compatible R) {g g' : Generator}

/-! ### Walks -/

section Walks

variable {α : Type}

include hR

/-- One step of the search for variables stands in the relation if what is done at the children
does. -/
theorem mentionedStep_compatible (g : Generator) {f f' : NodeId → Emit (List Nat)}
    (h : ∀ id, R _ (f id) (f' id)) (id : NodeId) :
  R _ (g.mentionedStep f id) (g.mentionedStep f' id)
  := by
  unfold mentionedStep
  cases g.tree.get? id with
  | none => exact hR.pure []
  | some node =>
    refine hR.bind (hR.along h _) fun left => ?_
    refine hR.bind (hR.along h _) fun right => ?_
    apply hR.pure

/-- One step along a chain stands in the relation if what is done with the item and with the rest
does. -/
theorem chainStep_compatible (g : Generator) {act act' : NodeId → Node → Emit α}
    (hact : ∀ id node, R α (act id node) (act' id node)) {f f' : NodeId → Emit (List α)}
    (h : ∀ id, R _ (f id) (f' id)) (id : NodeId) :
  R _ (g.chainStep act f id) (g.chainStep act' f' id)
  := by
  unfold chainStep
  cases g.tree.get? id with
  | none => exact hR.pure []
  | some node =>
    refine hR.bind (hact id node) fun first => ?_
    refine hR.bind (hR.along h _) fun others => ?_
    apply hR.pure

end Walks

/-! ### Generators -/

/-- Two generators for the same tree whose walks over its links are related. -/
structure Related (R : (α : Type) → Emit α → Emit α → Prop) (g g' : Generator) : Prop where
  tree : g'.tree = g.tree
  root : g'.root = g.root
  entry : g'.entry = g.entry
  mentioned (link : Option NodeId) : R _ (g.mentioned link) (g'.mentioned link)
  chain {α : Type} {act act' : NodeId → Node → Emit α} :
    (∀ id node, R α (act id node) (act' id node)) →
      ∀ head, R _ (g.chain act head) (g'.chain act' head)

/-- A generator is related to itself. -/
theorem Related.refl (hR : Compatible R) (g : Generator) :
  g.Related R g
  := by
  constructor
  · rfl
  · rfl
  · rfl
  · apply hR.along
    apply hR.walk
    intro f f' h
    exact g.mentionedStep_compatible hR h
  · intro α act act' hact
    apply hR.along
    apply hR.walk
    intro f f' h
    exact g.chainStep_compatible hR hact h

namespace Related

variable (h : g.Related R g')

include hR h

/-- The items of a chain are done alike by related generators. -/
theorem items {act act' : NodeId → Emit Unit} (hact : ∀ id, R _ (act id) (act' id))
    (head : Option NodeId) :
  R _ (g.items act head) (g'.items act' head)
  := by
  refine hR.bind (h.chain ?_ head) fun _ => hR.pure ()
  intro id node
  cases node.left with
  | none => exact hR.pure ()
  | some item => exact hact item

/-- Calls are emitted alike by related generators if their arguments are. -/
theorem call {value value' : NodeId → Emit Unit} (hvalue : ∀ id, R _ (value id) (value' id))
    (index : Nat) (arguments : Option NodeId) (asValue : Bool) :
  R _ (g.call value index arguments asValue) (g'.call value' index arguments asValue)
  := by
  refine hR.bind (h.mentioned arguments) fun saved => ?_
  refine hR.bind (hR.forM saved fun _ => rfl) fun _ => ?_
  refine hR.bind (h.items hR hvalue arguments) fun _ => ?_
  rw [h.entry]
  refine hR.bind (hR.instruction (Lower.isNumbered_target _ _)) fun _ => ?_
  refine hR.bind (hR.forM saved.reverse fun _ => rfl) fun _ => ?_
  cases asValue with
  | false => exact hR.pure ()
  | true => exact hR.instruction rfl

/-- One level of an expression is emitted alike by related generators if the levels below are. -/
theorem expressionStep {value value' : NodeId → Emit Unit}
    (hvalue : ∀ id, R _ (value id) (value' id)) (id : NodeId) :
  R _ (g.expressionStep value id) (g'.expressionStep value' id)
  := by
  unfold Generator.expressionStep
  rw [h.tree]
  refine hR.bind (hR.ofExcept _) fun node => ?_
  obtain ⟨kind, left, right, parent⟩ := node
  cases kind with
  | hole => apply hR.fail
  | separator => apply hR.fail
  | binary op =>
    cases op with
    | assign => apply hR.fail
    | arithmetic op =>
      apply hR.operand hvalue
      intro _
      apply hR.operand hvalue
      intro _
      exact hR.instruction (i := .arithmetic op) rfl
    | comparison op =>
      apply hR.operand hvalue
      intro _
      apply hR.operand hvalue
      intro _
      exact hR.instruction (i := .comparison op) rfl
  | unary op =>
    cases op with
    | math op =>
      apply hR.operand hvalue
      intro _
      exact hR.instruction (i := .math op) rfl
    | output op => apply hR.fail
    | input =>
      refine hR.bind (hR.ofExcept _) fun slot => ?_
      refine hR.bind (hR.instruction rfl) fun _ => ?_
      refine hR.bind (hR.instruction rfl) fun _ => ?_
      exact hR.instruction rfl
    | ret => apply hR.fail
  | control op => apply hR.fail
  | number value => exact hR.instruction rfl
  | «variable» index => exact hR.instruction rfl
  | function index =>
    cases left with
    | none => exact h.call hR hvalue index right true
    | some _ => apply hR.fail

/-- One level of a statement is emitted alike by related generators if its expressions and the
statements in it are. -/
theorem statementStep (hexpression : ∀ id, R _ (g.expression id) (g'.expression id))
    {inner inner' : NodeId → Emit Unit} (hinner : ∀ id, R _ (inner id) (inner' id)) (id : NodeId) :
  R _ (g.statementStep inner id) (g'.statementStep inner' id)
  := by
  unfold Generator.statementStep
  rw [h.tree]
  refine hR.bind (hR.ofExcept _) fun node => ?_
  obtain ⟨kind, left, right, parent⟩ := node
  cases kind with
  | hole => apply hR.fail
  | separator => apply hR.fail
  | binary op =>
    cases op with
    | assign =>
      apply hR.operand hexpression
      intro _
      refine hR.bind (hR.ofExcept _) fun slot => ?_
      exact hR.instruction rfl
    | arithmetic op => apply hR.fail
    | comparison op => apply hR.fail
  | unary op =>
    cases op with
    | math op => apply hR.fail
    | output op =>
      apply hR.operand hexpression
      intro _
      exact hR.instruction (i := .output op) rfl
    | input =>
      refine hR.bind (hR.ofExcept _) fun slot => ?_
      refine hR.bind (hR.instruction rfl) fun _ => ?_
      exact hR.instruction rfl
    | ret =>
      apply hR.operand hexpression
      intro _
      refine hR.bind (hR.instruction rfl) fun _ => ?_
      exact hR.instruction rfl
  | control op =>
    refine hR.bind (hR.ofExcept _) fun arms => ?_
    cases op with
    | branch =>
      exact hR.branch (hexpression _) (h.items hR hinner _) (h.items hR hinner _)
    | loop => exact hR.loop (hexpression _) (h.items hR hinner _)
  | number value => apply hR.fail
  | «variable» index => apply hR.fail
  | function index =>
    cases left with
    | none => exact h.call hR hexpression index right false
    | some _ => apply hR.fail

/-- A function is emitted alike by related generators if its statements are. -/
theorem definition (hstatement : ∀ id, R _ (g.statement id) (g'.statement id)) (id : NodeId) :
  R _ (g.definition id) (g'.definition id)
  := by
  unfold Generator.definition
  rw [h.tree, h.entry]
  refine hR.bind (hR.ofExcept _) fun (index, header) => ?_
  refine hR.bind (hR.report _) fun _ => ?_
  refine hR.bind (hR.label (Lower.isNumbered_target _ _)) fun _ => ?_
  refine hR.bind (h.chain (fun _ _ => hR.ofExcept _) _) fun slots => ?_
  refine hR.bind (hR.forM _ fun _ => rfl) fun _ => ?_
  refine hR.bind (h.items hR hstatement _) fun _ => ?_
  have hlast : R _ (g.endsWithReturn header.left) (g'.endsWithReturn header.left) := by
    unfold endsWithReturn lastItem
    rw [h.tree]
    exact hR.bind (hR.bind (h.chain (fun _ _ => hR.pure _) _) fun _ => hR.pure _) fun _ =>
      hR.pure _
  refine hR.bind hlast fun returns => ?_
  cases returns with
  | false => exact hR.instruction rfl
  | true => exact hR.pure ()

/-- Related generators do related work. -/
theorem program (hstatement : ∀ id, R _ (g.statement id) (g'.statement id)) (header : Node) :
  R _ (g.program header) (g'.program header)
  := by
  unfold Generator.program
  rw [h.tree, h.root]
  refine hR.bind (hR.instruction rfl) fun _ => ?_
  refine hR.bind (h.chain (fun id _ => h.definition hR hstatement id) _) fun _ => ?_
  refine hR.bind (hR.label rfl) fun _ => ?_
  refine hR.bind (h.items hR hstatement _) fun _ => ?_
  exact hR.instruction rfl

end Related

end Generator

/-- Every compatible relation holds between the work on a tree and itself. -/
theorem Tree.emit_compatible {R : (α : Type) → Emit α → Emit α → Prop} (hR : Emit.Compatible R)
    (t : Tree) (root : NodeId) (reach : Nat) :
  R _ (t.emit root reach) (t.emit root reach)
  := by
  refine hR.bind (hR.ofExcept _) fun (entry, header) => ?_
  have hg := Generator.Related.refl hR { tree := t, root, reach, entry }
  have hexpression := hR.walk root (fun _ _ hf => hg.expressionStep hR hf) reach
  have hstatement := hR.walk root (fun _ _ hf => hg.statementStep hR hexpression hf) reach
  exact hg.program hR hstatement header

end StackCompiler
