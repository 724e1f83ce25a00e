import Mathlib.Computability.StateTransition
import StackCompiler.Proofs.Exchange.RoundTrip

/-!
# The text of a tree as a canonical form of its shape

Two trees are compared by a loop that keeps pairs of links on a stack and stops at the first pair
that differs.  On trees with finite unfoldings it finds out whether the unfoldings agree.

No beginning of a written unfolding is a written unfolding itself, so an unfolding can be told from
its symbols up to the positions of its nodes.  Hence trees of the same shape are those with the same
text, as long as all values are numbers.
-/

namespace StackCompiler

/-- Different numbers have different bits. -/
theorem Binary64.bits_injective :
  Function.Injective Binary64.bits
  := by
  rintro ⟨negative, magnitude, hlt⟩ ⟨negative', magnitude', hlt'⟩ h
  have hpow : Nat.pow 2 63 = 9223372036854775808 := rfl
  simp only [bits] at h
  rw [hpow] at hlt hlt' h
  obtain rfl : negative = negative' := by
    cases negative <;> cases negative' <;> simp at h ⊢ <;> omega
  obtain rfl : magnitude = magnitude' := by omega
  rfl

/-! ### The comparing loop -/

/-- The state of the loop: the pairs of links that are still to be compared with the next pair
first, or the answer. -/
inductive Comparer where
  | pending (pairs : List (Option NodeId × Option NodeId))
  | answered (same : Bool)

namespace Comparer

open StateTransition

/-- The loop before it compares two trees. -/
def start (t t' : Tree) : Comparer :=
  .pending [(t.root, t'.root)]

/-- One turn of the loop; there is none when the answer is known.  Nodes agree if their tags and the
bits of their payloads agree, and their children are compared next. -/
def step (t t' : Tree) : Comparer → Option Comparer
  | .answered _ => none
  | .pending [] => some (.answered true)
  | .pending ((none, none) :: pairs) => some (.pending pairs)
  | .pending ((some id, some id') :: pairs) =>
    match t.get? id, t'.get? id' with
    | some n, some n' =>
      if n.kind.tag ≠ n'.kind.tag ∨ n.kind.payload.bits ≠ n'.kind.payload.bits then
        some (.answered false)
      else some (.pending ((n.left, n'.left) :: (n.right, n'.right) :: pairs))
    | _, _ => some (.answered false)
  | .pending _ => some (.answered false)

variable {t t' : Tree}

theorem eval_of_step_eq_false {c : Comparer} (h : step t t' c = some (.answered false)) :
  eval (step t t') c = Part.some (.answered false)
  := by
  apply Part.eq_some_iff.mpr
  exact mem_eval.mpr ⟨.single h, rfl⟩

/-- A pair of links is compared by their unfoldings before the loop goes on with the other pairs. -/
theorem eval_pending {link link' : Option NodeId} {u u' : Unfolding} (hu : t.Unfolds link u)
    (hu' : t'.Unfolds link' u') (pairs : List (Option NodeId × Option NodeId)) :
  eval (step t t') (.pending ((link, link') :: pairs))
    = if u.sameShape u' then eval (step t t') (.pending pairs) else Part.some (.answered false)
  := by
  induction hu generalizing link' u' pairs with
  | absent =>
    cases hu' with
    | absent => exact reaches_eval (.single rfl)
    | node hget hleft hright => exact eval_of_step_eq_false rfl
  | @node id n left right hget hleft hright ihl ihr =>
    cases hu' with
    | absent => exact eval_of_step_eq_false rfl
    | @node id' n' left' right' hget' hleft' hright' =>
      by_cases hkind : n.kind.tag = n'.kind.tag ∧ n.kind.payload = n'.kind.payload
      · obtain ⟨htag, hpayload⟩ := hkind
        have hstep : step t t' (.pending ((some id, some id') :: pairs))
            = some (.pending ((n.left, n'.left) :: (n.right, n'.right) :: pairs)) := by
          simp [step, hget, hget', htag, hpayload]
        have hnext : eval (step t t') (.pending ((some id, some id') :: pairs))
            = eval (step t t') (.pending ((n.left, n'.left) :: (n.right, n'.right) :: pairs)) :=
          reaches_eval (.single hstep)
        rw [hnext, ihl hleft', ihr hright']
        cases hsame : left.sameShape left' <;> simp [Unfolding.sameShape, htag, hpayload, hsame]
      · have hbits : n.kind.tag ≠ n'.kind.tag ∨ n.kind.payload.bits ≠ n'.kind.payload.bits := by
          rw [Binary64.bits_injective.ne_iff]
          exact not_and_or.mp hkind
        have hdiffer : Unfolding.sameShape (.node id n.kind left right)
            (.node id' n'.kind left' right') = false := by
          rcases not_and_or.mp hkind with htag | hpayload
          · simp [Unfolding.sameShape, htag]
          · simp [Unfolding.sameShape, hpayload]
        rw [hdiffer]
        apply eval_of_step_eq_false
        simp only [step, hget, hget', if_pos hbits]

/-- The loop ends with the answer whether the trees have the same shape. -/
theorem eval_start {u u' : Unfolding} (hu : t.Unfolds t.root u) (hu' : t'.Unfolds t'.root u') :
  eval (step t t') (start t t') = Part.some (.answered (t.sameShape t'))
  := by
  have hempty : eval (step t t') (.pending []) = Part.some (.answered true) :=
    Part.eq_some_iff.mpr (mem_eval.mpr ⟨.single rfl, rfl⟩)
  rw [start, eval_pending hu hu', hempty, Tree.sameShape, hu.unfolding_eq, hu'.unfolding_eq]
  cases u.sameShape u' <;> rfl

end Comparer

/-! ### Symbols and shapes -/

namespace Unfolding

/-- Unfoldings that agree are written with the same symbols. -/
theorem symbols_eq_of_sameShape {u v : Unfolding} (h : u.sameShape v)
    (further : List Exchange.Symbol) :
  u.symbols further = v.symbols further
  := by
  fun_induction sameShape u v generalizing further with
  | case1 => rfl
  | case2 id kind left right id' kind' left' right' ihl ihr =>
    simp only [Bool.and_eq_true, beq_iff_eq] at h
    obtain ⟨⟨⟨htag, hpayload⟩, hleft⟩, hright⟩ := h
    rw [symbols, symbols, htag, hpayload, ihl hleft, ihr hright]
  | case3 => cases h

/-- The symbols of an unfolding, whatever follows them, are those of no other unfolding. -/
theorem sameShape_of_symbols_eq {u v : Unfolding} {s s' : Shape} (hu : u.Shows s) (hv : v.Shows s')
    {further others : List Exchange.Symbol} (h : u.symbols further = v.symbols others) :
  u.sameShape v ∧ further = others
  := by
  induction hu generalizing v s' further others with
  | absent =>
    cases hv with
    | absent => exact ⟨rfl, (List.cons.inj h).2⟩
    | node => cases h
  | @node id kind left right l r hleft hright ihl ihr =>
    cases hv with
    | absent => cases h
    | @node id' kind' left' right' l' r' hleft' hright' =>
      simp only [symbols, List.cons.injEq, Exchange.Symbol.number.injEq, true_and] at h
      obtain ⟨htag, hpayload, hchildren⟩ := h
      have htag : kind.tag = kind'.tag := by
        have hread := kind.tag?_tag
        rw [htag, kind'.tag?_tag] at hread
        exact (Option.some.inj hread).symm
      obtain ⟨hl, hrest⟩ := ihl hleft' hchildren
      obtain ⟨hr, hclosing⟩ := ihr hright' hrest
      refine ⟨?_, (List.cons.inj hclosing).2⟩
      simp [sameShape, htag, hpayload, hl, hr]

/-- An unfolding without values that are not numbers is scanned as it was written. -/
theorem map_reread_symbols {u : Unfolding} (h : ∀ value, .number value ∈ u.kinds → ¬ value.isNaN)
    (further : List Exchange.Symbol) :
  (u.symbols further).map Exchange.Symbol.reread
    = u.symbols (further.map Exchange.Symbol.reread)
  := by
  induction u generalizing further with
  | absent => rfl
  | dangling id => rfl
  | cut id => rfl
  | node id kind left right ihl ihr =>
    have hpayload : kind.payload.reread = kind.payload := by
      apply Binary64.reread_of_not_isNaN
      cases kind with
      | number value => exact h value List.mem_cons_self
      | _ => exact Binary64.not_isNaN_ofNat _
    have hleft := ihl fun value hvalue =>
      h value (List.mem_cons_of_mem _ (List.mem_append_left _ hvalue))
    have hright := ihr fun value hvalue =>
      h value (List.mem_cons_of_mem _ (List.mem_append_right _ hvalue))
    rw [Exchange.map_reread_symbols, hpayload, hleft, hright, symbols]
    rfl

end Unfolding

namespace Tree

/-- The symbols of a tree without values that are not numbers can be told from its text. -/
theorem symbols_eq_of_dump_eq {t t' : Tree} (h : t.dump = t'.dump)
    (hnumbers : ∀ value, .number value ∈ t.unfolding.kinds → ¬ value.isNaN)
    (hnumbers' : ∀ value, .number value ∈ t'.unfolding.kinds → ¬ value.isNaN) :
  t.symbols = t'.symbols
  := by
  obtain ⟨placed, hscan, hplaced⟩ := Exchange.scanFrom_symbols t.symbols 0
  obtain ⟨placed', hscan', hplaced'⟩ := Exchange.scanFrom_symbols t'.symbols 0
  have hsame : Exchange.scanFrom 0 t.dump.toList = Exchange.scanFrom 0 t'.dump.toList := by rw [h]
  obtain rfl := Except.ok.inj (hscan.symm.trans (hsame.trans hscan'))
  have hreread := hplaced.symm.trans hplaced'
  rwa [symbols, symbols, Unfolding.map_reread_symbols hnumbers,
    Unfolding.map_reread_symbols hnumbers'] at hreread

/-- Trees with finite unfoldings and without values that are not numbers have the same text if and
only if they have the same shape, and the comparing loop finds out which. -/
theorem dump_eq_iff_sameShape {t t' : Tree} {u u' : Unfolding} (hu : t.Unfolds t.root u)
    (hu' : t'.Unfolds t'.root u') (hnumbers : ∀ value, .number value ∈ u.kinds → ¬ value.isNaN)
    (hnumbers' : ∀ value, .number value ∈ u'.kinds → ¬ value.isNaN) :
  (t.dump = t'.dump ↔ t.sameShape t')
    ∧ StateTransition.eval (Comparer.step t t') (.start t t')
      = Part.some (.answered (t.sameShape t'))
  := by
  refine ⟨?_, Comparer.eval_start hu hu'⟩
  obtain rfl := hu.unfolding_eq
  obtain rfl := hu'.unfolding_eq
  constructor
  · intro h
    exact (Unfolding.sameShape_of_symbols_eq hu.shows hu'.shows
      (symbols_eq_of_dump_eq h hnumbers hnumbers')).1
  · intro h
    rw [dump, dump, symbols, symbols, Unfolding.symbols_eq_of_sameShape h]

/-- The sum of two leaves of the same kind, with a node for each operand. -/
def splitSum (kind : NodeKind) : Tree where
  nodes := #[{ kind := .binary (.arithmetic .add), left := some 2, right := some 1 }, { kind },
    { kind }]
  root := some 0

theorem unfolds_splitSum (kind : NodeKind) :
  (splitSum kind).Unfolds (some 0)
    (.node 0 (.binary (.arithmetic .add)) (.node 2 kind .absent .absent)
      (.node 1 kind .absent .absent))
  := by
  apply @Unfolds.node _ 0 { kind := .binary (.arithmetic .add), left := some 2, right := some 1 }
  · rfl
  · exact @Unfolds.node _ 2 { kind } _ _ rfl .absent .absent
  · exact @Unfolds.node _ 1 { kind } _ _ rfl .absent .absent

/-- Sharing makes no difference to the text, the sign of zero does, and positions of variables make
none once they are rounded to the same number. -/
theorem dump_eq_iff_sameShape_splitSum :
  (sharedSum (.number (.zero true))).sameShape (splitSum (.number (.zero true)))
    ∧ (sharedSum (.number (.zero true))).dump = (splitSum (.number (.zero true))).dump
    ∧ ¬ (sharedSum (.number (.zero true))).sameShape (splitSum (.number (.zero false)))
    ∧ (sharedSum (.number (.zero true))).dump ≠ (splitSum (.number (.zero false))).dump
    ∧ (sharedSum (.variable (2 ^ 53))).sameShape (splitSum (.variable (2 ^ 53 + 1)))
    ∧ (sharedSum (.variable (2 ^ 53))).dump = (splitSum (.variable (2 ^ 53 + 1))).dump
  := by
  have hzero : ∀ negative, ¬ (Binary64.zero negative).isNaN := by decide
  have hsigned := dump_eq_iff_sameShape (unfolds_sharedSum (.number (.zero true)))
    (unfolds_splitSum (.number (.zero true))) (by simp [Unfolding.kinds, hzero])
    (by simp [Unfolding.kinds, hzero])
  have hmixed := dump_eq_iff_sameShape (unfolds_sharedSum (.number (.zero true)))
    (unfolds_splitSum (.number (.zero false))) (by simp [Unfolding.kinds, hzero])
    (by simp [Unfolding.kinds, hzero])
  have hrounded := dump_eq_iff_sameShape (unfolds_sharedSum (.variable (2 ^ 53)))
    (unfolds_splitSum (.variable (2 ^ 53 + 1))) (by simp [Unfolding.kinds])
    (by simp [Unfolding.kinds])
  have hsame : (sharedSum (.number (.zero true))).sameShape (splitSum (.number (.zero true))) := by
    decide
  have hdiffer : ¬ (sharedSum (.number (.zero true))).sameShape
      (splitSum (.number (.zero false))) := by decide
  have hvariable : (sharedSum (.variable (2 ^ 53))).sameShape
      (splitSum (.variable (2 ^ 53 + 1))) := by decide +kernel
  exact ⟨hsame, hsigned.1.mpr hsame, hdiffer, mt hmixed.1.mp hdiffer, hvariable,
    hrounded.1.mpr hvariable⟩

end Tree

end StackCompiler
