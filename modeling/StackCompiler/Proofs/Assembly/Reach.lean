import Mathlib.Data.Finset.Card
import StackCompiler.Proofs.Assembly.Emit
import StackCompiler.Proofs.Tree.Unfolds

/-!
# Bounds on walks

A walk that meets its bound is unfinished, and a greater bound may bring it further.  What it does
at one node depends only on what it does at the nodes that this one leads to.  So if a greater bound
brings it further at no node, then no bound does; and it can be brought further at some node only as
often as there are nodes.  Past the size of the arena the bound makes no difference any more: a tree
for which the generator meets it is one for which no bound is enough.
-/

namespace StackCompiler

namespace Emit

variable {α : Type} {root : NodeId}

/-! ### The value of a piece of work -/

/-- Two pieces of work come to the same value or fail with the same error, whatever listings they
start from. -/
def SameFate (α : Type) (m m' : Emit α) : Prop :=
  ∀ listing listing', (m.outcome listing).map Prod.fst = (m'.outcome listing').map Prod.fst

/-- Two pieces of work with the same fate both fail with one error, or both come to one value. -/
theorem SameFate.cases {m m' : Emit α} (h : SameFate α m m') (listing listing' : Listing) :
  (∃ error, m.outcome listing = .error error ∧ m'.outcome listing' = .error error)
    ∨ ∃ a out out', m.outcome listing = .ok (a, out) ∧ m'.outcome listing' = .ok (a, out')
  := by
  have hfate := h listing listing'
  cases hm : m.outcome listing with
  | error error =>
    cases hm' : m'.outcome listing' with
    | error error' =>
      rw [hm, hm'] at hfate
      cases hfate
      exact .inl ⟨error, rfl, rfl⟩
    | ok value' =>
      rw [hm, hm'] at hfate
      cases hfate
  | ok value =>
    cases hm' : m'.outcome listing' with
    | error error' =>
      rw [hm, hm'] at hfate
      cases hfate
    | ok value' =>
      obtain ⟨a, out⟩ := value
      obtain ⟨a', out'⟩ := value'
      rw [hm, hm'] at hfate
      cases hfate
      exact .inr ⟨a, out, out', rfl, rfl⟩

/-- Work after other work has the same fate if both parts have. -/
theorem SameFate.bind {β : Type} {m m' : Emit α} {k k' : α → Emit β} (h : SameFate α m m')
    (hk : ∀ a, SameFate β (k a) (k' a)) :
  SameFate β (m >>= k) (m' >>= k')
  := by
  intro listing listing'
  rw [outcome_bind, outcome_bind]
  rcases h.cases listing listing' with ⟨error, hm, hm'⟩ | ⟨a, out, out', hm, hm'⟩
  · rw [hm, hm']
  · rw [hm, hm']
    exact hk a out out'

/-- The number that is taken makes no difference to what comes after it if no number does. -/
theorem SameFate.numbered {take : Listing → Nat × Listing} {k k' : Nat → Emit α}
    (hk : ∀ number number', SameFate α (k number) (k' number')) :
  SameFate α (modifyGet take >>= k) (modifyGet take >>= k')
  := by
  intro listing listing'
  exact hk (take listing).1 (take listing').1 (take listing).2 (take listing').2

/-- Whether work fails, and what it comes to, is decided by the tree and not by the listing. -/
theorem sameFate_compatible :
  Compatible SameFate
  where
  pure _ _ _ := rfl
  bind := SameFate.bind
  fail _ _ _ := rfl
  report _ _ _ := rfl
  instruction _ _ _ := rfl
  label _ _ _ := rfl
  branch := by
    intro condition condition' consequence consequence' alternative alternative' hcondition
      hconsequence halternative
    refine .numbered fun number number' => ?_
    refine .bind hcondition fun _ => ?_
    refine .bind (fun _ _ => rfl) fun _ => ?_
    refine .bind (fun _ _ => rfl) fun _ => ?_
    refine .bind hconsequence fun _ => ?_
    refine .bind (fun _ _ => rfl) fun _ => ?_
    refine .bind (fun _ _ => rfl) fun _ => ?_
    exact .bind halternative fun _ _ _ => rfl
  loop := by
    intro condition condition' body body' hcondition hbody
    refine .numbered fun number number' => ?_
    refine .bind (fun _ _ => rfl) fun _ => ?_
    refine .bind hcondition fun _ => ?_
    refine .bind (fun _ _ => rfl) fun _ => ?_
    refine .bind (fun _ _ => rfl) fun _ => ?_
    refine .bind hbody fun _ => ?_
    exact .bind (fun _ _ => rfl) fun _ _ _ => rfl

/-! ### Unfinished work -/

/-- The outcome of a walk that meets its bound. -/
def unfinished (root : NodeId) : Except CompileError (α × Listing) :=
  .error (.lower (.malformed root .endless))

/-- Wherever one piece of work does not meet its bound, another one comes to the same. -/
def Below (root : NodeId) (α : Type) (m m' : Emit α) : Prop :=
  ∀ listing, m.outcome listing = unfinished root ∨ m.outcome listing = m'.outcome listing

/-- Work comes to the same as itself. -/
theorem Below.refl (m : Emit α) :
  Below root α m m
  := fun _ => .inr rfl

/-- Work after other work stays below if both parts are below. -/
theorem Below.bind {β : Type} {m m' : Emit α} {k k' : α → Emit β} (h : Below root α m m')
    (hk : ∀ a, Below root β (k a) (k' a)) :
  Below root β (m >>= k) (m' >>= k')
  := by
  intro listing
  rw [outcome_bind, outcome_bind]
  rcases h listing with hm | hm
  · rw [hm]
    exact .inl rfl
  · rw [← hm]
    cases m.outcome listing with
    | error error => exact .inr rfl
    | ok value => exact hk value.1 value.2

/-- Two pieces of work that are below each other have the same outcome. -/
theorem Below.antisymm {m m' : Emit α} (h : Below root α m m') (h' : Below root α m' m)
    (listing : Listing) :
  m.outcome listing = m'.outcome listing
  := by
  rcases h listing with hm | hm
  · rcases h' listing with hm' | hm'
    · rw [hm, hm']
    · exact hm'.symm
  · exact hm

/-- All that is built from work stays below what is built from other work in the same way. -/
theorem below_compatible (root : NodeId) :
  Compatible (Below root)
  where
  pure _ := .refl _
  bind := Below.bind
  fail _ := .refl _
  report _ := .refl _
  instruction _ := .refl _
  label _ := .refl _
  branch := by
    intro condition condition' consequence consequence' alternative alternative' hcondition
      hconsequence halternative
    refine .bind (.refl _) fun number => ?_
    refine .bind hcondition fun _ => ?_
    refine .bind (.refl _) fun _ => ?_
    refine .bind (.refl _) fun _ => ?_
    refine .bind hconsequence fun _ => ?_
    refine .bind (.refl _) fun _ => ?_
    refine .bind (.refl _) fun _ => ?_
    exact .bind halternative fun _ => .refl _
  loop := by
    intro condition condition' body body' hcondition hbody
    refine .bind (.refl _) fun number => ?_
    refine .bind (.refl _) fun _ => ?_
    refine .bind hcondition fun _ => ?_
    refine .bind (.refl _) fun _ => ?_
    refine .bind (.refl _) fun _ => ?_
    refine .bind hbody fun _ => ?_
    exact .bind (.refl _) fun _ => .refl _

/-! ### Walks with different bounds -/

section Walks

variable {t : Tree} {step : (NodeId → Emit α) → NodeId → Emit α}

/-- What a step does is as far determined by what is done at other nodes as that is, and at a
position outside the arena it does not depend on that at all. -/
structure IsStep (t : Tree) (root : NodeId) (step : (NodeId → Emit α) → NodeId → Emit α) :
    Prop where
  sameFate {f f' : NodeId → Emit α} : (∀ id, SameFate α (f id) (f' id)) →
    ∀ id, SameFate α (step f id) (step f' id)
  below {f f' : NodeId → Emit α} : (∀ id, Below root α (f id) (f' id)) →
    ∀ id, Below root α (step f id) (step f' id)
  outside {id : NodeId} (hget : t.get? id = none) (f f' : NodeId → Emit α) : step f id = step f' id

/-- A walk comes to its bound at a node, whatever listing it starts from. -/
def MeetsBound (root : NodeId) (step : (NodeId → Emit α) → NodeId → Emit α) (reach : Nat)
    (id : NodeId) : Prop :=
  ∀ listing, (walk root step reach id).outcome listing = unfinished root

/-- A greater bound makes no difference at any node. -/
def Settled (root : NodeId) (step : (NodeId → Emit α) → NodeId → Emit α) (reach : Nat) : Prop :=
  ∀ id listing,
    (walk root step reach id).outcome listing = (walk root step (reach + 1) id).outcome listing

namespace IsStep

variable (h : IsStep t root step)

include h

/-- A greater bound only brings a walk further. -/
theorem walk_below (reach : Nat) (id : NodeId) :
  Below root α (walk root step reach id) (walk root step (reach + 1) id)
  := by
  induction reach generalizing id with
  | zero => exact fun _ => .inl rfl
  | succ reach ih => exact h.below ih id

/-- The fate of a walk does not depend on the listing. -/
theorem walk_sameFate (reach : Nat) (id : NodeId) :
  SameFate α (walk root step reach id) (walk root step reach id)
  := sameFate_compatible.walk root (fun _ _ hf => h.sameFate hf) reach id

/-- At every node a walk comes to its bound, or a greater bound makes no difference there. -/
theorem meetsBound_or_eq (reach : Nat) (id : NodeId) :
  MeetsBound root step reach id
    ∨ ∀ listing,
      (walk root step reach id).outcome listing = (walk root step (reach + 1) id).outcome listing
  := by
  by_cases hfresh : (walk root step reach id).outcome {} = unfinished root
  · left
    intro listing
    rcases (h.walk_sameFate reach id).cases {} listing with ⟨error, h₁, h₂⟩ | ⟨_, _, _, h₁, -⟩
    · rw [h₂, ← h₁, hfresh]
    · rw [hfresh] at h₁
      cases h₁
  · right
    intro listing
    apply (h.walk_below reach id listing).resolve_left
    intro hunfinished
    rcases (h.walk_sameFate reach id).cases {} listing with ⟨error, h₁, h₂⟩ | ⟨_, _, _, -, h₂⟩
    · rw [h₁, ← h₂, hunfinished] at hfresh
      exact hfresh rfl
    · rw [hunfinished] at h₂
      cases h₂

/-- A walk that meets its bound meets every smaller bound. -/
theorem meetsBound_of_le {reach reach' : Nat} (hle : reach ≤ reach') {id : NodeId}
    (hbound : MeetsBound root step reach' id) :
  MeetsBound root step reach id
  := by
  induction hle using Nat.decreasingInduction with
  | self => exact hbound
  | of_succ reach _ ih =>
    rcases h.meetsBound_or_eq reach id with hmeets | heq
    · exact hmeets
    · intro listing
      rw [heq listing]
      exact ih listing

/-- If a greater bound makes no difference, then no bound that is greater still does. -/
theorem settled_succ {reach : Nat} (hsettled : Settled root step reach) :
  Settled root step (reach + 1)
  := by
  intro id
  apply Below.antisymm
  · exact h.walk_below (reach + 1) id
  · apply h.below
    intro id listing
    exact .inr (hsettled id listing).symm

/-- If one more node makes no difference to a bound, then it makes none to a greater bound. -/
theorem settled_of_le {reach reach' : Nat} (hle : reach ≤ reach')
    (hsettled : Settled root step reach) :
  Settled root step reach'
  := Nat.le_induction hsettled (fun _ _ => h.settled_succ) reach' hle

/-- Where a greater bound makes a difference, it brings the walk to an end at some node. -/
theorem exists_finished {reach : Nat} (hsettled : ¬ Settled root step (reach + 1)) :
  ∃ id < t.size, MeetsBound root step (reach + 1) id ∧ ¬ MeetsBound root step (reach + 2) id
  := by
  unfold Settled at hsettled
  push Not at hsettled
  obtain ⟨id, listing, hne⟩ := hsettled
  have hmeets : MeetsBound root step (reach + 1) id :=
    (h.meetsBound_or_eq (reach + 1) id).resolve_right fun heq => hne (heq listing)
  refine ⟨id, ?_, hmeets, ?_⟩
  · cases hget : t.get? id with
    | some n => exact Tree.lt_size_of_get? hget
    | none => exact absurd (congrArg (fun m => outcome m listing) (h.outside hget _ _)) hne
  · intro hmeets'
    exact hne ((hmeets listing).trans (hmeets' listing).symm)

/-- Past the size of the arena a greater bound makes no difference. -/
theorem settled :
  Settled root step (t.size + 1)
  := by
  by_contra hnot
  have hfinished : ∀ reach ∈ Finset.range (t.size + 1), ∃ id ∈ Finset.range t.size,
      MeetsBound root step (reach + 1) id ∧ ¬ MeetsBound root step (reach + 2) id := by
    intro reach hreach
    have hle : reach + 1 ≤ t.size + 1 := Finset.mem_range.mp hreach
    obtain ⟨id, hlt, hid⟩ := h.exists_finished fun hsettled => hnot (h.settled_of_le hle hsettled)
    exact ⟨id, Finset.mem_range.mpr hlt, hid⟩
  choose! node hnode hbounds using hfinished
  -- No node is brought to its end twice, and there are more bounds than nodes.
  have hdistinct : ∀ a ∈ Finset.range (t.size + 1), ∀ b ∈ Finset.range (t.size + 1), a < b →
      node a ≠ node b := by
    intro a ha b hb hlt heq
    apply (hbounds a ha).2
    rw [heq]
    exact h.meetsBound_of_le (Nat.succ_le_succ hlt) (hbounds b hb).1
  obtain ⟨a, ha, b, hb, hne, heq⟩ := Finset.exists_ne_map_eq_of_card_lt_of_maps_to
    (by simp : (Finset.range t.size).card < (Finset.range (t.size + 1)).card) hnode
  rcases Nat.lt_or_gt_of_ne hne with hlt | hlt
  · exact hdistinct a ha b hb hlt heq
  · exact hdistinct b hb a ha hlt heq.symm

/-- Two bounds past the size of the arena make no difference. -/
theorem outcome_walk_eq {reach reach' : Nat} (hreach : t.size < reach) (hreach' : t.size < reach')
    (id : NodeId) (listing : Listing) :
  (walk root step reach id).outcome listing = (walk root step reach' id).outcome listing
  := by
  have hlast : ∀ reach, t.size < reach →
      (walk root step (t.size + 1) id).outcome listing
        = (walk root step reach id).outcome listing := by
    intro reach hreach
    induction reach, hreach using Nat.le_induction with
    | base => rfl
    | succ reach hle ih =>
      rw [ih]
      exact h.settled_of_le hle h.settled id listing
  rw [← hlast reach hreach, ← hlast reach' hreach']

end IsStep

end Walks

/-! ### Work that agrees -/

/-- Two pieces of work that come to the same, with a value or an error that does not depend on the
listing they start from. -/
structure Agree (root : NodeId) (α : Type) (m m' : Emit α) : Prop where
  below : Below root α m m'
  above : Below root α m' m
  sameFate : SameFate α m m'

/-- Work that agrees stays so in all that is built from it. -/
theorem agree_compatible (root : NodeId) :
  Compatible (Agree root)
  where
  pure a := ⟨.refl _, .refl _, sameFate_compatible.pure a⟩
  bind hm hk := ⟨hm.below.bind fun a => (hk a).below, hm.above.bind fun a => (hk a).above,
    hm.sameFate.bind fun a => (hk a).sameFate⟩
  fail error := ⟨.refl _, .refl _, sameFate_compatible.fail error⟩
  report events := ⟨.refl _, .refl _, sameFate_compatible.report events⟩
  instruction hi := ⟨.refl _, .refl _, sameFate_compatible.instruction hi⟩
  label hl := ⟨.refl _, .refl _, sameFate_compatible.label hl⟩
  branch hcondition hconsequence halternative :=
    ⟨(below_compatible root).branch hcondition.below hconsequence.below halternative.below,
      (below_compatible root).branch hcondition.above hconsequence.above halternative.above,
      sameFate_compatible.branch hcondition.sameFate hconsequence.sameFate halternative.sameFate⟩
  loop hcondition hbody :=
    ⟨(below_compatible root).loop hcondition.below hbody.below,
      (below_compatible root).loop hcondition.above hbody.above,
      sameFate_compatible.loop hcondition.sameFate hbody.sameFate⟩

/-- Work that agrees has the same outcome. -/
theorem Agree.outcome_eq {m m' : Emit α} (h : Agree root α m m') (listing : Listing) :
  m.outcome listing = m'.outcome listing
  := h.below.antisymm h.above listing

/-- Walks with steps that agree, and with bounds past the size of the arena, agree. -/
theorem IsStep.walk_agree {t : Tree} {step step' : (NodeId → Emit α) → NodeId → Emit α}
    (h : IsStep t root step)
    (hsteps : ∀ f f', (∀ id, Agree root α (f id) (f' id)) →
      ∀ id, Agree root α (step f id) (step' f' id))
    {reach reach' : Nat} (hreach : t.size < reach) (hreach' : t.size < reach') (id : NodeId) :
  Agree root α (walk root step reach id) (walk root step' reach' id)
  := by
  have hsame := (agree_compatible root).walk root hsteps reach' id
  have heq := h.outcome_walk_eq hreach hreach' id
  constructor
  · intro listing
    right
    rw [heq listing, hsame.outcome_eq listing]
  · intro listing
    right
    rw [heq listing, hsame.outcome_eq listing]
  · intro listing listing'
    rw [heq listing]
    exact hsame.sameFate listing listing'

end Emit

/-! ### Generators with different bounds -/

namespace Generator

open Emit

variable {g g' : Generator}

/-- What the search for variables does at a node is determined by what it does at other nodes. -/
theorem isStep_mentionedStep (g : Generator) :
  IsStep g.tree g.root g.mentionedStep
  where
  sameFate := g.mentionedStep_compatible sameFate_compatible
  below := g.mentionedStep_compatible (below_compatible g.root)
  outside hget _ _ := by
    unfold mentionedStep
    rw [hget]

/-- What is done from an item of a chain on is determined by what is done at other nodes. -/
theorem isStep_chainStep (g : Generator) {α : Type} {act : NodeId → Node → Emit α}
    (hact : ∀ id node, SameFate α (act id node) (act id node)) :
  IsStep g.tree g.root (g.chainStep act)
  where
  sameFate := g.chainStep_compatible sameFate_compatible hact
  below := g.chainStep_compatible (below_compatible g.root) fun _ _ => .refl _
  outside hget _ _ := by
    unfold chainStep
    rw [hget]

/-- The code of an expression is determined by the code of expressions at other nodes. -/
theorem isStep_expressionStep (g : Generator) :
  IsStep g.tree g.root g.expressionStep
  where
  sameFate := (Related.refl sameFate_compatible g).expressionStep sameFate_compatible
  below := (Related.refl (below_compatible g.root) g).expressionStep (below_compatible g.root)
  outside hget _ _ := by
    unfold expressionStep Tree.expectNode
    rw [hget]
    exact (fail_bind _ _).trans (fail_bind _ _).symm

/-- The code of a statement is determined by the code of statements at other nodes. -/
theorem isStep_statementStep (g : Generator) :
  IsStep g.tree g.root g.statementStep
  where
  sameFate :=
    (Related.refl sameFate_compatible g).statementStep sameFate_compatible
      (g.isStep_expressionStep.walk_sameFate g.reach)
  below :=
    (Related.refl (below_compatible g.root) g).statementStep (below_compatible g.root)
      fun _ => .refl _
  outside hget _ _ := by
    unfold statementStep Tree.expectNode
    rw [hget]
    exact (fail_bind _ _).trans (fail_bind _ _).symm

/-- The generators differ only in their bounds, and both bounds are past the size of the arena. -/
structure SameButReach (g g' : Generator) : Prop where
  tree : g'.tree = g.tree
  root : g'.root = g.root
  entry : g'.entry = g.entry
  reach : g.tree.size < g.reach
  reach' : g.tree.size < g'.reach

namespace SameButReach

variable (h : g.SameButReach g')

include h

/-- Generators that differ in a bound that is large enough do the same work along chains. -/
theorem related :
  g.Related (Agree g.root) g'
  where
  tree := h.tree
  root := h.root
  entry := h.entry
  mentioned := by
    apply (agree_compatible g.root).along
    intro id
    rw [h.root]
    apply g.isStep_mentionedStep.walk_agree _ h.reach h.reach'
    intro f f' hf
    have hstep : g'.mentionedStep = g.mentionedStep := by
      unfold mentionedStep
      rw [h.tree]
    rw [hstep]
    exact g.mentionedStep_compatible (agree_compatible g.root) hf
  chain := by
    intro α act act' hact
    apply (agree_compatible g.root).along
    intro id
    rw [h.root]
    have hfate : ∀ id node, SameFate α (act id node) (act id node) := by
      intro id node listing listing'
      rw [(hact id node).outcome_eq listing']
      exact (hact id node).sameFate listing listing'
    apply (g.isStep_chainStep hfate).walk_agree _ h.reach h.reach'
    intro f f' hf
    have hstep : g'.chainStep act' = g.chainStep act' := by
      unfold chainStep
      rw [h.tree]
    rw [hstep]
    exact g.chainStep_compatible (agree_compatible g.root) hact hf

/-- Generators that differ in a bound that is large enough emit the same expressions. -/
theorem expression (id : NodeId) :
  Agree g.root _ (g.expression id) (g'.expression id)
  := by
  unfold Generator.expression
  rw [h.root]
  apply g.isStep_expressionStep.walk_agree _ h.reach h.reach'
  intro f f' hf
  exact h.related.expressionStep (agree_compatible g.root) hf

/-- Generators that differ in a bound that is large enough emit the same statements. -/
theorem statement (id : NodeId) :
  Agree g.root _ (g.statement id) (g'.statement id)
  := by
  unfold Generator.statement
  rw [h.root]
  apply g.isStep_statementStep.walk_agree _ h.reach h.reach'
  intro f f' hf
  exact h.related.statementStep (agree_compatible g.root) h.expression hf

end SameButReach

end Generator

/-- What comes of a tree is what comes of its code. -/
theorem result_generateWithin {t : Tree} {root : NodeId} (hroot : t.root = some root) (reach : Nat)
    (listing : Listing) :
  (generateWithin reach t listing).result = ((t.emit root reach).outcome listing).map Prod.snd
  := by
  unfold generateWithin
  rw [hroot]
  change (Run.andThen ((t.emit root reach) listing) _).result = _
  unfold Run.andThen Emit.outcome
  cases ((t.emit root reach) listing).result <;> rfl

/-- The bound makes no difference to the code of a tree, as long as it is past the size of the
arena. -/
theorem result_generateWithin_eq {t : Tree} {reach : Nat} (h : t.size < reach) (listing : Listing) :
  (generateWithin reach t listing).result = (generate t listing).result
  := by
  unfold generate
  cases hroot : t.root with
  | none =>
    unfold generateWithin
    rw [hroot]
  | some root =>
    have hagree : Emit.Agree root _ (t.emit root reach) (t.emit root (t.size + 1)) := by
      refine (Emit.agree_compatible root).bind ((Emit.agree_compatible root).ofExcept _) ?_
      rintro ⟨entry, header⟩
      have hsame : Generator.SameButReach { tree := t, root, reach, entry }
          { tree := t, root, reach := t.size + 1, entry } :=
        ⟨rfl, rfl, rfl, h, Nat.lt_succ_self _⟩
      exact hsame.related.program (Emit.agree_compatible root) hsame.statement header
    rw [result_generateWithin hroot, result_generateWithin hroot, hagree.outcome_eq listing]

end StackCompiler
