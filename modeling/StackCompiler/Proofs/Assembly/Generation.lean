import StackCompiler.Proofs.Assembly.Lower
import StackCompiler.Proofs.Assembly.Reach

/-!
# Generation and lowering

For a tree with a finite unfolding, the code that is generated is that of the unfolding.  The
generator goes along the links of the arena and adds lines to a listing; lowering goes down the
unfolding and makes up the code from that of the parts.  Both come to the same, with the same error
where there is no code.
-/

namespace StackCompiler

/-! ### Code in pieces -/

/-- Code that depends on the numbering, and the numbering to go on with after it. -/
abbrev Lowered := Numbering → Except LoweringError (List Line × Numbering)

namespace Lowered

/-- Lines that do not depend on the numbering. -/
def lines (code : Except LoweringError (List Line)) : Lowered :=
  fun numbering => code.map fun code => (code, numbering)

/-- One piece of code after another. -/
def append (first second : Lowered) : Lowered := fun numbering => do
  let (code, numbering) ← first numbering
  let (code', numbering) ← second numbering
  return (code ++ code', numbering)

/-- Lines after lines. -/
theorem lines_append_lines (first second : Except LoweringError (List Line)) :
  (lines first).append (lines second) = lines (do return (← first) ++ (← second))
  := by
  funext numbering
  cases first with
  | error error => rfl
  | ok code =>
    cases second with
    | error error => rfl
    | ok code' => rfl

/-- An operand and what is made of it. -/
theorem operand_eq (value : Except LoweringError (List Line)) (last : List Line)
    (numbering : Numbering) :
  ((lines value).append (lines (.ok last))) numbering
    = (do
        let value ← value
        return (value ++ last, numbering))
  := by
  cases value with
  | error error => rfl
  | ok code => rfl

/-- One operand, the other, and what is made of them. -/
theorem operands_eq (left right : Except LoweringError (List Line)) (last : List Line)
    (numbering : Numbering) :
  ((lines left).append ((lines right).append (lines (.ok last)))) numbering
    = lines (do
        let first ← left
        let second ← right
        return first ++ second ++ last) numbering
  := by
  rw [lines_append_lines, lines_append_lines]
  cases left with
  | error error => rfl
  | ok first =>
    cases right with
    | error error => rfl
    | ok second => simp [lines, Bind.bind, Except.bind, Pure.pure, Except.pure, Except.map]

end Lowered

namespace Emit

variable {α β : Type}

/-- The work adds the code to every listing, or fails where there is none. -/
def Emits (m : Emit α) (code : Lowered) : Prop :=
  ∀ listing, (m.outcome listing).map Prod.snd
    = ((code listing.numbering).map fun (lines, next) => listing.addCode lines next).mapError .lower

/-- The work adds nothing and has the given value, or fails where there is none. -/
def Returns (m : Emit α) (x : Except LoweringError α) : Prop :=
  ∀ listing, m.outcome listing = (x.map fun a => (a, listing)).mapError .lower

/-- A result or an error that is at hand is returned as it is. -/
theorem returns_ofExcept (x : Except LoweringError α) :
  Returns (ofExcept x) x
  := by
  intro listing
  cases x <;> rfl

/-- A report returns nothing. -/
theorem returns_report (events : List Event) :
  Returns (report events) (.ok ())
  := fun _ => rfl

/-- What is returned after something else is what follows from it. -/
theorem Returns.bind {m : Emit α} {k : α → Emit β} {x : Except LoweringError α}
    {f : α → Except LoweringError β} (h : Returns m x) (hk : ∀ a, x = .ok a → Returns (k a) (f a)) :
  Returns (m >>= k) (x >>= f)
  := by
  intro listing
  rw [outcome_bind, h listing]
  cases x with
  | error error => rfl
  | ok a => exact hk a rfl listing

/-- A value that is known may be put into what follows. -/
theorem Returns.ok_bind {m : Emit α} {k : α → Emit β} {a : α} {x : Except LoweringError β}
    (h : Returns m (.ok a)) (hk : Returns (k a) x) :
  Returns (m >>= k) x
  := by
  intro listing
  rw [outcome_bind, h listing]
  exact hk listing

/-- A value that is known may be put into what is emitted next. -/
theorem Returns.ok_bind_emits {m : Emit α} {k : α → Emit β} {a : α} {code : Lowered}
    (h : Returns m (.ok a)) (hk : Emits (k a) code) :
  Emits (m >>= k) code
  := by
  intro listing
  rw [outcome_bind, h listing]
  exact hk listing

/-- What is emitted next follows from the value, unless there is an error. -/
theorem Returns.bind_emits {m : Emit α} {k : α → Emit β} {x : Except LoweringError α}
    {code : α → Lowered} (h : Returns m x) (hk : ∀ a, x = .ok a → Emits (k a) (code a)) :
  Emits (m >>= k) (fun numbering => x >>= fun a => code a numbering)
  := by
  intro listing
  rw [outcome_bind, h listing]
  cases x with
  | error error => rfl
  | ok a => exact hk a rfl listing

namespace Emits

variable {m : Emit α} {k : α → Emit β} {code code' : Lowered}

/-- The code may be replaced by an equal one. -/
theorem congr (h : Emits m code) (heq : ∀ numbering, code numbering = code' numbering) :
  Emits m code'
  := funext heq ▸ h

/-- What is emitted next comes after the code that was emitted. -/
theorem bind (h : Emits m code) (hk : ∀ a, Emits (k a) code') :
  Emits (m >>= k) (code.append code')
  := by
  intro listing
  have hfirst := h listing
  rw [outcome_bind]
  unfold Lowered.append
  cases hm : m.outcome listing with
  | error error =>
    rw [hm] at hfirst
    cases hcode : code listing.numbering with
    | error error' =>
      rw [hcode] at hfirst
      exact hfirst
    | ok emitted =>
      rw [hcode] at hfirst
      cases hfirst
  | ok value =>
    rw [hm] at hfirst
    cases hcode : code listing.numbering with
    | error error' =>
      rw [hcode] at hfirst
      cases hfirst
    | ok emitted =>
      rw [hcode] at hfirst
      have hlisting : value.2 = listing.addCode emitted.1 emitted.2 := Except.ok.inj hfirst
      have hsecond := hk value.1 value.2
      rw [hlisting] at hsecond
      dsimp only
      rw [hlisting, hsecond]
      change ((code' emitted.2).map _).mapError _
        = ((code' emitted.2 >>= fun next => return (emitted.1 ++ next.1, next.2)).map _).mapError _
      cases code' emitted.2 with
      | error error' => rfl
      | ok next =>
        apply congrArg Except.ok
        simp [Listing.addCode]

/-- To return a value emits no code. -/
theorem pure (a : α) :
  Emits (pure a) (.lines (.ok []))
  := by
  intro listing
  apply congrArg Except.ok
  simp [Listing.addCode]

/-- The value of the work is of no concern. -/
theorem bind_pure (h : Emits m code) (f : α → β) :
  Emits (m >>= fun a => Pure.pure (f a)) code
  := by
  intro listing
  rw [← h listing, outcome_bind]
  cases m.outcome listing with
  | error error => rfl
  | ok value => rfl

/-- A failure emits no code. -/
theorem fail (error : LoweringError) :
  Emits (fail error : Emit α) (fun _ => .error error)
  := fun _ => rfl

/-- An instruction is one line of code. -/
theorem instruction (i : Instruction) :
  Emits (instruction i) (.lines (.ok [.instruction i]))
  := fun _ => rfl

/-- A label is one line of code. -/
theorem label (l : Label) :
  Emits (label l) (.lines (.ok [.label l]))
  := fun _ => rfl

/-- One instruction for each slot makes one line for each slot. -/
theorem forM (slots : List Nat) (f : Nat → Instruction) :
  Emits (slots.forM fun slot => Emit.instruction (f slot))
    (.lines (.ok (slots.map fun slot => .instruction (f slot))))
  := by
  induction slots with
  | nil => exact pure ()
  | cons slot slots ih => exact (instruction (f slot)).bind fun _ => ih

/-- Work that begins by taking a number from the numbering. -/
theorem numbered (number : Numbering → Nat) (next : Numbering → Numbering) {k : Nat → Emit α}
    {code : Nat → Lowered} (hk : ∀ number, Emits (k number) (code number)) :
  Emits
    (modifyGet (fun listing : Listing =>
      (number listing.numbering, { listing with numbering := next listing.numbering })) >>= k)
    (fun numbering => code (number numbering) (next numbering))
  := by
  intro listing
  exact hk (number listing.numbering) { listing with numbering := next listing.numbering }

/-- A branch takes its number before its arms take theirs, and its code is put together from theirs.
-/
theorem branch {condition consequence alternative : Emit Unit}
    {test : Except LoweringError (List Line)} {first second : Lowered}
    (hcondition : Emits condition (.lines test)) (hconsequence : Emits consequence first)
    (halternative : Emits alternative second) :
  Emits (branch condition consequence alternative) (fun numbering => do
    let number := numbering.branches
    let test ← test
    let (consequence, numbering) ← first { numbering with branches := number + 1 }
    let (alternative, numbering) ← second numbering
    return (Lower.branch number test consequence alternative, numbering))
  := by
  have hnumbered := numbered (·.branches) (fun numbering =>
      { numbering with branches := numbering.branches + 1 }) fun number =>
    hcondition.bind fun _ =>
    (instruction (.push (.ofNat 0))).bind fun _ =>
    (instruction (.jumpIfEqual (.branchFalse number))).bind fun _ =>
    hconsequence.bind fun _ =>
    (instruction (.jump (.branchTrue number))).bind fun _ =>
    (label (.branchFalse number)).bind fun _ =>
    halternative.bind fun _ => label (.branchTrue number)
  apply congr hnumbered
  intro numbering
  cases test with
  | error error => rfl
  | ok test =>
    simp only [Lowered.append, Lowered.lines, Except.map, Bind.bind, Except.bind]
    cases first { numbering with branches := numbering.branches + 1 } with
    | error error => rfl
    | ok emitted =>
      dsimp only
      cases second emitted.2 with
      | error error => rfl
      | ok emitted' =>
        simp only [Lower.branch, List.append_assoc, List.cons_append, List.nil_append,
          Pure.pure, Except.pure]

/-- A loop takes its number before its body takes any, and its code is put together from that of the
body. -/
theorem loop {condition body : Emit Unit} {test : Except LoweringError (List Line)}
    {inner : Lowered} (hcondition : Emits condition (.lines test)) (hbody : Emits body inner) :
  Emits (loop condition body) (fun numbering => do
    let number := numbering.loops
    let test ← test
    let (body, numbering) ← inner { numbering with loops := number + 1 }
    return (Lower.loop number test body, numbering))
  := by
  have hnumbered := numbered (·.loops) (fun numbering =>
      { numbering with loops := numbering.loops + 1 }) fun number =>
    (label (.loopTrue number)).bind fun _ =>
    hcondition.bind fun _ =>
    (instruction (.push (.ofNat 0))).bind fun _ =>
    (instruction (.jumpIfEqual (.loopFalse number))).bind fun _ =>
    hbody.bind fun _ =>
    (instruction (.jump (.loopTrue number))).bind fun _ => label (.loopFalse number)
  apply congr hnumbered
  intro numbering
  cases test with
  | error error => rfl
  | ok test =>
    simp only [Lowered.append, Lowered.lines, Except.map, Bind.bind, Except.bind]
    cases inner { numbering with loops := numbering.loops + 1 } with
    | error error => rfl
    | ok emitted =>
      simp only [Lower.loop, List.append_assoc, List.cons_append, List.nil_append, Pure.pure,
        Except.pure]

end Emits

end Emit

/-! ### Parts of a tree -/

/-- A node that is in the arena is found. -/
theorem Tree.expectNode_eq {t : Tree} {id : NodeId} {n : Node} (hget : t.get? id = some n) :
  t.expectNode id = .ok n
  := by
  unfold expectNode
  rw [hget]

namespace Tree.Unfolds

open Emit

variable {t : Tree} {link : Option NodeId} {u : Unfolding} (hu : t.Unfolds link u)

include hu

/-- The slot of a variable is read off the node as off its unfolding. -/
theorem expectSlot_eq (parent : NodeId) :
  t.expectSlot parent link = Lower.slot parent u
  := by
  cases hu with
  | absent => rfl
  | @node id n left right hget hleft hright =>
    simp only [expectSlot, expectChild, expectNode, bind, Except.bind, hget, Lower.slot]
    rfl

/-- Work that begins with that on a child which has to be a value. -/
theorem operand {value : NodeId → Emit Unit} {entry : Nat} {parent : NodeId} {k : Emit Unit}
    {code : Lowered}
    (hvalue : ∀ id, link = some id → Emits (value id) (.lines (Lower.expression entry parent u)))
    (hk : Emits k code) :
  Emits (ofExcept (expectChild parent link) >>= fun child => value child >>= fun _ => k)
    ((Lowered.lines (Lower.expression entry parent u)).append code)
  := by
  cases hu with
  | absent => exact fun _ => rfl
  | @node id n left right hget hleft hright =>
    exact (returns_ofExcept (.ok id)).ok_bind_emits ((hvalue id rfl).bind fun _ => hk)

omit hu in
/-- A definition has its header in the arena, or it has no code. -/
theorem expectHeader_cases {id : NodeId} {n : Node} {left : Unfolding}
    (hget : t.get? id = some n) (hleft : t.Unfolds n.left left) :
  (∃ error, t.expectHeader id = .error error
    ∧ ∀ next, Lower.header (.node id n.kind left next) = .error error)
  ∨ ∃ index header body parameters,
      t.expectHeader id = .ok (index, header)
      ∧ (∀ next, Lower.header (.node id n.kind left next) = .ok (index, body, parameters))
      ∧ t.Unfolds header.left body ∧ t.Unfolds header.right parameters
  := by
  unfold expectHeader
  rw [expectNode_eq hget]
  simp only [bind, Except.bind]
  cases hkind : n.kind with
  | function index =>
    cases hl : n.left with
    | none =>
      rw [hl] at hleft
      cases hleft
      exact .inl ⟨_, rfl, fun _ => rfl⟩
    | some child =>
      rw [hl] at hleft
      cases hleft with
      | @node _ header body parameters hget' hbody hparameters =>
        dsimp only
        rw [expectNode_eq hget']
        exact .inr ⟨index, header, body, parameters, rfl, fun _ => rfl, hbody, hparameters⟩
  | _ => exact .inl ⟨_, rfl, fun _ => rfl⟩

omit hu in
/-- A branch or a loop has its condition and its arms in the arena, or it has no code. -/
theorem expectArms_cases {n : Node} {left right : Unfolding} (hleft : t.Unfolds n.left left)
    (hright : t.Unfolds n.right right) (id : NodeId) :
  (∃ error, t.expectArms id n = .error error
    ∧ ∀ entry op numbering,
        Lower.statement entry (.node id (.control op) left right) numbering = .error error)
  ∨ ∃ condition arms arm first second,
      n.left = some condition ∧ t.expectArms id n = .ok (condition, arms)
      ∧ right = .node arm .separator first second
      ∧ t.Unfolds arms.left first ∧ t.Unfolds arms.right second
  := by
  unfold expectArms
  cases hl : n.left with
  | none =>
    rw [hl] at hleft
    cases hleft
    exact .inl ⟨_, rfl, fun _ _ _ => rfl⟩
  | some condition =>
    rw [hl] at hleft
    cases hleft with
    | node hget hfirst hsecond =>
      cases hr : n.right with
      | none =>
        rw [hr] at hright
        cases hright
        exact .inl ⟨_, rfl, fun _ _ _ => rfl⟩
      | some arm =>
        rw [hr] at hright
        cases hright with
        | @node _ arms first second hget' hfirst' hsecond' =>
          simp only [expectChild, bind, Except.bind, expectNode_eq hget']
          by_cases hkind : arms.kind = .separator
          · right
            rw [hkind]
            exact ⟨condition, arms, arm, first, second, rfl, by simp [pure, Except.pure], rfl,
              hfirst', hsecond'⟩
          · left
            refine ⟨_, if_pos hkind, fun entry op numbering => ?_⟩
            simp only [Lower.statement]
            rw [if_pos hkind]

end Tree.Unfolds

namespace Generator

open Emit

variable {g : Generator}

/-- The variables that are mentioned along a link are those of its unfolding. -/
theorem returns_mentioned {u : Unfolding} {link : Option NodeId} {reach : Nat}
    (hu : g.tree.Unfolds link u) (hreach : u.longestPath.length ≤ reach) :
  Returns (along (walk g.root g.mentionedStep reach) link) (.ok u.mentioned)
  := by
  induction hu generalizing reach with
  | absent => exact fun _ => rfl
  | @node id n left right hget hleft hright ihl ihr =>
    have hl := Unfolding.longestPath_left_le id n.kind left right
    have hr := Unfolding.longestPath_right_le id n.kind left right
    obtain ⟨reach, rfl⟩ : ∃ r, reach = r + 1 := ⟨reach - 1, by omega⟩
    change Returns (g.mentionedStep _ id) _
    unfold mentionedStep
    rw [hget]
    apply (ihl (by omega)).ok_bind
    apply (ihr (by omega)).ok_bind
    exact returns_ofExcept (.ok _)

/-! ### Chains -/

/-- The code of a chain is that of its nodes, one after the other.  The items are not as deep as the
chain. -/
theorem chain_emits {α : Type} {act : NodeId → Node → Emit α} {code : Unfolding → Lowered}
    {depth : Nat} (first : NodeId → NodeKind → Unfolding → Lowered)
    (habsent : code .absent = .lines (.ok []))
    (hnode : ∀ id kind item next,
      code (.node id kind item next) = (first id kind item).append (code next))
    (hact : ∀ id n item, g.tree.get? id = some n → g.tree.Unfolds n.left item →
      item.longestPath.length < depth → Emits (act id n) (first id n.kind item))
    {link : Option NodeId} {u : Unfolding} (hu : g.tree.Unfolds link u)
    (hdepth : u.longestPath.length ≤ depth) {reach : Nat} (hreach : u.longestPath.length ≤ reach) :
  Emits (along (walk g.root (g.chainStep act) reach) link) (code u)
  := by
  induction hu generalizing reach with
  | absent =>
    rw [habsent]
    exact Emits.pure _
  | @node id n item next hget hitem hnext ihl ihr =>
    have hl := Unfolding.longestPath_left_le id n.kind item next
    have hr := Unfolding.longestPath_right_le id n.kind item next
    obtain ⟨reach, rfl⟩ : ∃ r, reach = r + 1 := ⟨reach - 1, by omega⟩
    change Emits (g.chainStep act _ id) _
    unfold chainStep
    rw [hget, hnode]
    apply (hact id n item hget hitem (by omega)).bind
    intro _
    apply Emits.bind_pure
    exact ihr (by omega) (by omega)

variable (hreach : g.tree.size ≤ g.reach)

include hreach

/-- The code of the items of a chain, where an empty item has none. -/
theorem items_emits {act : NodeId → Emit Unit} {code : Unfolding → Lowered} {depth : Nat}
    (first : NodeId → Unfolding → Lowered) (habsent : code .absent = .lines (.ok []))
    (hempty : ∀ parent, first parent .absent = .lines (.ok []))
    (hnode : ∀ id kind item next,
      code (.node id kind item next) = (first id item).append (code next))
    (hact : ∀ parent id item, g.tree.Unfolds (some id) item → item.longestPath.length < depth →
      Emits (act id) (first parent item))
    {link : Option NodeId} {u : Unfolding} (hu : g.tree.Unfolds link u)
    (hdepth : u.longestPath.length ≤ depth) :
  Emits (g.items act link) (code u)
  := by
  apply Emits.bind_pure
  apply chain_emits (fun id _ item => first id item) habsent hnode _ hu hdepth
    (hu.longestPath_length_le.trans hreach)
  intro id n item hget hitem hlt
  cases hn : n.left with
  | none =>
    rw [hn] at hitem
    cases hitem
    rw [hempty]
    exact Emits.pure ()
  | some child =>
    rw [hn] at hitem
    exact hact id child item hitem hlt

/-! ### Expressions -/

/-- The code of a call is that of its unfolding, if the code of the arguments is. -/
theorem call_emits {value : NodeId → Emit Unit} {link : Option NodeId} {u : Unfolding}
    (hu : g.tree.Unfolds link u)
    (hvalue : ∀ parent id item, g.tree.Unfolds (some id) item →
      item.longestPath.length < u.longestPath.length →
      Emits (value id) (.lines (Lower.expression g.entry parent item)))
    (index : Nat) (asValue : Bool) :
  Emits (g.call value index link asValue) (.lines (do
    let arguments ← Lower.arguments g.entry u
    return Lower.call g.entry index u.mentioned arguments
      ++ if asValue then [.instruction .pushResult] else []))
  := by
  have harguments : Emits (g.items value link) (.lines (Lower.arguments g.entry u)) := by
    apply items_emits hreach (fun parent item => .lines (Lower.argument g.entry parent item)) rfl
      (fun _ => rfl) _ _ hu le_rfl
    · intro id kind item next
      rw [Lowered.lines_append_lines]
      cases item <;> rfl
    · intro parent id item hitem hlt
      have hcode := hvalue parent id item hitem hlt
      cases hitem
      exact hcode
  have hsaved : Returns (g.mentioned link) (.ok u.mentioned) :=
    returns_mentioned hu (hu.longestPath_length_le.trans hreach)
  apply hsaved.ok_bind_emits
  have hresult : Emits (if asValue then instruction .pushResult else pure ())
      (.lines (.ok (if asValue then [.instruction .pushResult] else []))) := by
    cases asValue with
    | false => exact Emits.pure ()
    | true => exact Emits.instruction _
  have hcode := (Emits.forM u.mentioned .load).bind fun _ =>
    harguments.bind fun _ =>
    (Emits.instruction (.call (Lower.target g.entry index))).bind fun _ =>
    (Emits.forM u.mentioned.reverse .store).bind fun _ => hresult
  apply hcode.congr
  intro numbering
  simp only [Lowered.lines_append_lines]
  cases Lower.arguments g.entry u with
  | error error => rfl
  | ok arguments =>
    simp [Lower.call, Lowered.lines, Bind.bind, Except.bind, Pure.pure, Except.pure, Except.map]

/-- The code of an expression is that of its unfolding. -/
theorem expression_emits {reach : Nat} {id : NodeId} {u : Unfolding} (parent : NodeId)
    (hu : g.tree.Unfolds (some id) u) (hlen : u.longestPath.length ≤ reach) :
  Emits (walk g.root g.expressionStep reach id) (.lines (Lower.expression g.entry parent u))
  := by
  induction reach generalizing id u parent with
  | zero =>
    cases hu
    cases hlen
  | succ reach ih =>
    cases hu with
    | @node _ n left right hget hleft hright =>
      have hl := Unfolding.longestPath_left_le id n.kind left right
      have hr := Unfolding.longestPath_right_le id n.kind left right
      change Emits (g.expressionStep _ id) _
      unfold expressionStep
      rw [Tree.expectNode_eq hget]
      apply (returns_ofExcept (.ok n)).ok_bind_emits
      have hfirst : ∀ child, n.left = some child →
          Emits (walk g.root g.expressionStep reach child)
            (.lines (Lower.expression g.entry id left)) :=
        fun child hchild => ih id (hchild ▸ hleft) (by omega)
      have hsecond : ∀ child, n.right = some child →
          Emits (walk g.root g.expressionStep reach child)
            (.lines (Lower.expression g.entry id right)) :=
        fun child hchild => ih id (hchild ▸ hright) (by omega)
      cases hkind : n.kind with
      | number value => exact Emits.instruction _
      | «variable» index => exact Emits.instruction _
      | binary op =>
        cases op with
        | assign => exact Emits.fail _
        | arithmetic op =>
          apply (hleft.operand hfirst (hright.operand hsecond
            (Emits.instruction (.arithmetic op)))).congr
          exact Lowered.operands_eq _ _ _
        | comparison op =>
          apply (hleft.operand hfirst (hright.operand hsecond
            (Emits.instruction (.comparison op)))).congr
          exact Lowered.operands_eq _ _ _
      | unary op =>
        cases op with
        | input =>
          dsimp only
          rw [hright.expectSlot_eq id]
          apply ((returns_ofExcept (Lower.slot id right)).bind_emits fun slot _ =>
            (Emits.instruction .input).bind fun _ => (Emits.instruction (.store slot)).bind fun _ =>
              Emits.instruction (.load slot)).congr
          intro numbering
          simp only [Lowered.lines_append_lines, Lower.expression]
          cases Lower.slot id right <;> rfl
        | math op =>
          apply (hright.operand hsecond (Emits.instruction (.math op))).congr
          intro numbering
          rw [Lowered.lines_append_lines]
          rfl
        | output op => exact Emits.fail _
        | ret => exact Emits.fail _
      | function index =>
        cases hn : n.left with
        | none =>
          rw [hn] at hleft
          cases hleft
          exact call_emits hreach hright
            (fun parent id item hitem hlt => ih parent hitem (by omega)) index true
        | some child =>
          rw [hn] at hleft
          cases hleft
          exact Emits.fail _
      | hole => exact Emits.fail _
      | _ => exact Emits.fail _

/-! ### Statements -/

/-- The code of a statement is that of its unfolding. -/
theorem statement_emits {reach : Nat} {id : NodeId} {u : Unfolding}
    (hu : g.tree.Unfolds (some id) u) (hlen : u.longestPath.length ≤ reach) :
  Emits (walk g.root g.statementStep reach id) (Lower.statement g.entry u)
  := by
  induction reach generalizing id u with
  | zero =>
    cases hu
    cases hlen
  | succ reach ih =>
    cases hu with
    | @node _ n left right hget hleft hright =>
      have hl := Unfolding.longestPath_left_le id n.kind left right
      have hr := Unfolding.longestPath_right_le id n.kind left right
      change Emits (g.statementStep _ id) _
      unfold statementStep
      rw [Tree.expectNode_eq hget]
      apply (returns_ofExcept (.ok n)).ok_bind_emits
      have hvalue : ∀ {parent id item}, g.tree.Unfolds (some id) item →
          Emits (g.expression id) (.lines (Lower.expression g.entry parent item)) :=
        fun hitem => expression_emits hreach _ hitem (hitem.longestPath_length_le.trans hreach)
      have hitems : ∀ {link v}, g.tree.Unfolds link v → v.longestPath.length ≤ reach →
          Emits (g.items (walk g.root g.statementStep reach) link)
            (Lower.statements g.entry v) := by
        intro link v hv hle
        apply items_emits hreach (fun _ item => Lower.statement g.entry item) _ _ _ _ hv hle
        · rfl
        · exact fun _ => rfl
        · exact fun _ _ _ _ => rfl
        · exact fun _ id item hitem hlt => ih hitem (by omega)
      cases hkind : n.kind with
      | binary op =>
        cases op with
        | assign =>
          dsimp only
          rw [hleft.expectSlot_eq id]
          apply (hright.operand (fun _ hchild => hvalue (hchild ▸ hright))
            ((returns_ofExcept (Lower.slot id left)).bind_emits fun slot _ =>
              Emits.instruction (.store slot))).congr
          intro numbering
          simp only [Lower.statement, Lowered.append, Lowered.lines]
          cases Lower.expression g.entry id right with
          | error error => rfl
          | ok value => cases Lower.slot id left <;> rfl
        | _ => exact Emits.fail _
      | unary op =>
        cases op with
        | ret =>
          apply (hright.operand (fun _ hchild => hvalue (hchild ▸ hright))
            ((Emits.instruction .popResult).bind fun _ => Emits.instruction .ret)).congr
          rw [Lowered.lines_append_lines]
          exact Lowered.operand_eq _ _
        | input =>
          dsimp only
          rw [hright.expectSlot_eq id]
          apply ((returns_ofExcept (Lower.slot id right)).bind_emits fun slot _ =>
            (Emits.instruction .input).bind fun _ => Emits.instruction (.store slot)).congr
          intro numbering
          simp only [Lowered.lines_append_lines, Lower.statement]
          cases Lower.slot id right <;> rfl
        | output op =>
          apply (hright.operand (fun _ hchild => hvalue (hchild ▸ hright))
            (Emits.instruction (.output op))).congr
          exact Lowered.operand_eq _ _
        | math op => exact Emits.fail _
      | function index =>
        cases hn : n.left with
        | none =>
          rw [hn] at hleft
          cases hleft
          apply (call_emits hreach hright (fun parent id item hitem hlt => hvalue hitem)
            index false).congr
          intro numbering
          simp only [Lower.statement, Lowered.lines]
          cases Lower.arguments g.entry right with
          | error error => rfl
          | ok arguments =>
            simp [Bind.bind, Except.bind, Pure.pure, Except.pure, Except.map]
        | some child =>
          rw [hn] at hleft
          cases hleft
          exact Emits.fail _
      | control op =>
        dsimp only
        obtain ⟨error, harms, hcode⟩ | ⟨condition, arms, arm, first, second, hn, harms, rfl, hfirst,
          hsecond⟩ := Tree.Unfolds.expectArms_cases hleft hright id
        · rw [harms]
          apply (Emits.fail error).congr
          intro numbering
          rw [hcode]
        · have hl' := Unfolding.longestPath_left_le arm .separator first second
          have hr' := Unfolding.longestPath_right_le arm .separator first second
          rw [hn] at hleft
          rw [harms]
          apply (returns_ofExcept (.ok (condition, arms))).ok_bind_emits
          cases op with
          | branch =>
            apply ((hvalue hleft).branch (hitems hfirst (by omega))
              (hitems hsecond (by omega))).congr
            intro numbering
            cases hleft
            rfl
          | loop =>
            apply ((hvalue hleft).loop (hitems hfirst (by omega))).congr
            intro numbering
            cases hleft
            rfl
      | hole => exact Emits.fail _
      | _ => exact Emits.fail _

/-- The code of a chain of statements is that of its unfolding. -/
theorem statements_emits {link : Option NodeId} {u : Unfolding} (hu : g.tree.Unfolds link u) :
  Emits (g.statements link) (Lower.statements g.entry u)
  := by
  apply items_emits hreach (fun _ item => Lower.statement g.entry item) rfl (fun _ => rfl)
    (fun _ _ _ _ => rfl) _ hu le_rfl
  intro _ id item hitem _
  exact statement_emits hreach hitem (hitem.longestPath_length_le.trans hreach)

/-! ### Definitions -/

/-- The parameters of a definition are those of its unfolding. -/
theorem returns_slots (id : NodeId) {link : Option NodeId} {u : Unfolding}
    (hu : g.tree.Unfolds link u) :
  Returns (g.chain (fun _ node => ofExcept (g.tree.expectSlot id node.left)) link)
    (Lower.slots id u)
  := by
  have hlen := hu.longestPath_length_le.trans hreach
  unfold chain
  generalize g.reach = reach at hlen
  induction hu generalizing reach with
  | absent => exact returns_ofExcept (.ok [])
  | @node head n item next hget hitem hnext ihl ihr =>
    have hr := Unfolding.longestPath_right_le head n.kind item next
    obtain ⟨reach, rfl⟩ : ∃ r, reach = r + 1 := ⟨reach - 1, by omega⟩
    rw [along, walk, chainStep, hget, Lower.slots]
    dsimp only
    rw [hitem.expectSlot_eq id]
    apply (returns_ofExcept (Lower.slot id item)).bind
    intro slot _
    apply (ihr reach (by omega)).bind
    intro slots _
    exact returns_ofExcept (.ok (slot :: slots))

omit hreach in
/-- The links to the items of a chain show the items of its unfolding. -/
theorem returns_itemLinks {link : Option NodeId} {u : Unfolding} {reach : Nat}
    (hu : g.tree.Unfolds link u) (hlen : u.longestPath.length ≤ reach) :
  ∃ links,
    Returns (along (walk g.root (g.chainStep fun _ node => pure node.left) reach) link) (.ok links)
    ∧ List.Forall₂ g.tree.Unfolds links u.items
  := by
  induction hu generalizing reach with
  | absent => exact ⟨[], returns_ofExcept (.ok []), .nil⟩
  | @node head n item next hget hitem hnext ihl ihr =>
    have hr := Unfolding.longestPath_right_le head n.kind item next
    obtain ⟨reach, rfl⟩ : ∃ r, reach = r + 1 := ⟨reach - 1, by omega⟩
    obtain ⟨links, hlinks, hall⟩ := ihr (show next.longestPath.length ≤ reach by omega)
    refine ⟨n.left :: links, ?_, .cons hitem hall⟩
    rw [along, walk, chainStep, hget]
    apply (returns_ofExcept (.ok n.left)).ok_bind
    apply hlinks.ok_bind
    exact returns_ofExcept (.ok (n.left :: links))

/-- Whether a body ends with a return is seen in its unfolding. -/
theorem returns_endsWithReturn {link : Option NodeId} {u : Unfolding}
    (hu : g.tree.Unfolds link u) :
  Returns (g.endsWithReturn link) (.ok (Lower.endsWithReturn u))
  := by
  obtain ⟨links, hlinks, hall⟩ := returns_itemLinks hu (hu.longestPath_length_le.trans hreach)
  apply (hlinks.ok_bind (returns_ofExcept (.ok links.getLast?.join))).ok_bind
  have hlast : ((links.getLast?.join.bind g.tree.get?).any fun node => node.kind = .unary .ret)
      = Lower.endsWithReturn u := by
    unfold Lower.endsWithReturn
    have hreverse := List.rel_reverse hall
    rw [← List.head?_reverse, ← List.head?_reverse]
    generalize links.reverse = links at hreverse
    generalize u.items.reverse = items at hreverse
    cases hreverse with
    | nil => rfl
    | cons hitem _ =>
      cases hitem with
      | absent => rfl
      | @node id n left right hget hleft hright =>
        simp only [List.head?_cons, Option.join_some, Option.bind_some, hget, Option.any_some]
        cases n.kind with
        | unary op => cases op <;> rfl
        | _ => rfl
  rw [hlast]
  exact returns_ofExcept (.ok _)

/-- The code of a definition is that of its unfolding. -/
theorem definition_emits {id : NodeId} {n : Node} {left : Unfolding}
    (hget : g.tree.get? id = some n) (hleft : g.tree.Unfolds n.left left) :
  Emits (g.definition id) (Lower.definition g.entry id (.node id n.kind left .absent))
  := by
  unfold definition
  obtain ⟨error, hheader, hcode⟩ | ⟨index, header, body, parameters, hheader, hcode, hbody,
    hparameters⟩ := Tree.Unfolds.expectHeader_cases hget hleft
  · rw [hheader]
    apply (Emits.fail error).congr
    intro numbering
    rw [Lower.definition, hcode]
    rfl
  · rw [hheader]
    apply (returns_ofExcept (.ok (index, header))).ok_bind_emits
    apply (returns_report [.functionBegun index]).ok_bind_emits
    have hreturn : Emits (do unless ← g.endsWithReturn header.left do instruction .ret)
        (.lines (.ok (if Lower.endsWithReturn body then [] else [.instruction .ret]))) := by
      apply (returns_endsWithReturn hreach hbody).ok_bind_emits
      cases Lower.endsWithReturn body with
      | true => exact Emits.pure _
      | false => exact Emits.instruction _
    have hemits := (Emits.label (Lower.target g.entry index)).bind fun _ =>
      (returns_slots hreach id hparameters).bind_emits fun slots _ =>
        (Emits.forM slots.reverse .store).bind fun _ =>
        (statements_emits hreach hbody).bind fun _ => hreturn
    apply hemits.congr
    intro numbering
    simp only [Lower.definition, hcode, Lowered.append, Lowered.lines, Except.map, bind,
      Except.bind]
    cases Lower.slots id parameters with
    | error error => rfl
    | ok slots =>
      dsimp only
      cases Lower.statements g.entry body numbering with
      | error error => rfl
      | ok emitted => simp [Pure.pure, Except.pure]

/-! ### Programs -/

/-- The code of the definitions and of the body of the first one is that of their unfoldings. -/
theorem program_emits {next : Unfolding} {header : Node} {body : Unfolding}
    (hnext : g.tree.Unfolds ((g.tree.get? g.root).bind (·.right)) next)
    (hbody : g.tree.Unfolds header.left body) :
  Emits (g.program header) (fun numbering => do
    let (functions, numbering) ← Lower.definitions g.entry next numbering
    let (main, numbering) ← Lower.statements g.entry body numbering
    return (.instruction (.jump .main) :: functions ++ .label .main :: main
      ++ [.instruction .halt], numbering))
  := by
  have hdefinitions : Emits (g.chain (fun id _ => g.definition id)
      ((g.tree.get? g.root).bind (·.right))) (Lower.definitions g.entry next) := by
    apply chain_emits
      (fun id kind left => Lower.definition g.entry id (.node id kind left .absent)) rfl
      (fun _ _ _ _ => rfl) _ hnext le_rfl (hnext.longestPath_length_le.trans hreach)
    exact fun id n item hget hitem _ => definition_emits hreach hget hitem
  have hemits := (Emits.instruction (.jump .main)).bind fun _ =>
    hdefinitions.bind fun _ =>
    (Emits.label .main).bind fun _ =>
    (statements_emits hreach hbody).bind fun _ => Emits.instruction .halt
  apply hemits.congr
  intro numbering
  simp only [Lowered.append, Lowered.lines, Except.map, bind, Except.bind]
  cases Lower.definitions g.entry next numbering with
  | error error => rfl
  | ok emitted =>
    dsimp only
    cases Lower.statements g.entry body emitted.2 with
    | error error => rfl
    | ok emitted' => simp [pure, Except.pure]

end Generator

namespace Tree.Unfolds

variable {t : Tree} {u : Unfolding}

/-- The code of a tree with a finite unfolding is that of the unfolding. -/
theorem emit_emits {root : NodeId} (hu : t.Unfolds (some root) u) :
  Emit.Emits (t.emit root (t.size + 1)) (Lower.program u)
  := by
  cases hu with
  | @node _ n left next hget hleft hnext =>
    unfold Tree.emit
    obtain ⟨error, hheader, hcode⟩ | ⟨index, header, body, parameters, hheader, hcode, hbody,
      hparameters⟩ := expectHeader_cases hget hleft
    · rw [hheader]
      apply (Emit.Emits.fail error).congr
      intro numbering
      rw [Lower.program, hcode]
      rfl
    · rw [hheader]
      apply (Emit.returns_ofExcept (.ok (index, header))).ok_bind_emits
      have hothers : t.Unfolds ((t.get? root).bind (·.right)) next := by
        rw [hget]
        exact hnext
      have hemits := Generator.program_emits
        (g := { tree := t, root, reach := t.size + 1, entry := index }) (Nat.le_succ t.size)
        hothers hbody
      apply hemits.congr
      intro numbering
      simp only [Lower.program, hcode, bind, Except.bind, Lower.others]

/-- The code that is generated for a tree with a finite unfolding is that of the unfolding. -/
theorem result_generate (hu : t.Unfolds t.root u) (listing : Listing) :
  (generate t listing).result = (u.lower listing).mapError .lower
  := by
  unfold generate
  cases hroot : t.root with
  | none =>
    rw [hroot] at hu
    cases hu
    unfold generateWithin
    rw [hroot]
    rfl
  | some root =>
    rw [hroot] at hu
    rw [result_generateWithin hroot, hu.emit_emits listing]
    unfold Unfolding.lower
    cases Lower.program u listing.numbering with
    | error error => rfl
    | ok emitted => rfl

end Tree.Unfolds

end StackCompiler
