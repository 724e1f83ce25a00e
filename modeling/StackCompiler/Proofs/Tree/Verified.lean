import StackCompiler.Proofs.Tree.Verification

/-!
# Verified trees

If nothing is wrong with the links of a tree, then following all links from the root ends inside the
arena and meets every node that was made once.  So verification finds nothing in a tree exactly if
it is such a tree and nothing is wrong with its shape.
-/

namespace StackCompiler

/-! ### Masks -/

namespace Findings

theorem contains_insert (findings : Findings) (finding other : Finding) :
  (findings.insert finding).contains other = (findings.contains other || finding == other)
  := by
  have hlt : finding.bit < 8 := by cases finding <;> decide
  have hbit : decide (finding.bit = other.bit) = (finding == other) := by
    cases finding <;> cases other <;> rfl
  simp only [insert, contains, BitVec.getLsbD_or, BitVec.getLsbD_twoPow, hlt, decide_true,
    Bool.true_and, hbit]

/-- A mask contains exactly the findings that it is made of. -/
theorem contains_ofList (list : List Finding) (finding : Finding) :
  (ofList list).contains finding ↔ finding ∈ list
  := by
  have hfold : ∀ findings : Findings,
      (list.foldl insert findings).contains finding
        ↔ findings.contains finding ∨ finding ∈ list := by
    induction list with
    | nil => simp
    | cons first list ih =>
      intro findings
      rw [List.foldl_cons, ih, contains_insert, Bool.or_eq_true, beq_iff_eq, List.mem_cons,
        or_assoc, @eq_comm _ first finding]
  rw [ofList, hfold]
  simp [contains, EmptyCollection.emptyCollection]

theorem ofList_eq_empty_iff {list : List Finding} :
  ofList list = ∅ ↔ list = []
  := by
  constructor
  · intro h
    apply List.eq_nil_iff_forall_not_mem.mpr
    intro finding hmem
    have hcontains := (contains_ofList list finding).mpr hmem
    rw [h] at hcontains
    simp [contains, EmptyCollection.emptyCollection] at hcontains
  · rintro rfl
    rfl

end Findings

namespace Tree

variable {t : Tree}

/-! ### Walks that only reach new nodes -/

/-- Every step of the walk reaches a node for the first time. -/
def AllNew (visits : List Visit) : Prop :=
  ∀ visit ∈ visits, ∃ id n, visit = .reached id n

/-- The positions that are reached for the first time. -/
def reachedIds (visits : List Visit) : List NodeId :=
  visits.filterMap fun
    | .reached id _ => some id
    | _ => none

theorem linkFindings_eq_nil_iff {visits : List Visit} :
  t.linkFindings visits = [] ↔ AllNew visits ∧ visits.length = t.live
  := by
  simp only [linkFindings, AllNew, ite_eq_left_iff, reduceCtorEq, imp_false, not_not,
    Bool.and_eq_true, List.all_eq_true, decide_eq_true_eq]
  apply and_congr_left'
  apply forall₂_congr
  intro visit _
  cases visit <;> simp

/-- The walk reaches only positions that are not marked yet. -/
theorem not_marked_of_mem_reachedIds {visited : Array Bool} {stack : List NodeId} {id : NodeId}
    (h : id ∈ reachedIds (t.visitsFrom visited stack)) :
  visited[id]? = some false
  := by
  fun_induction visitsFrom t visited stack with
  | case1 => cases h
  | case2 visited top rest hget ih => apply ih h
  | case3 visited top rest n hget hnew ih =>
    rcases List.mem_cons.mp h with rfl | h
    · apply hnew
    · have hmarked := ih h
      by_cases heq : top = id
      · subst heq
        obtain ⟨hlt, -⟩ := Array.getElem?_eq_some_iff.mp hnew
        simp [hlt] at hmarked
      · rwa [Array.getElem?_setIfInBounds_ne heq] at hmarked
  | case4 visited top rest n hget hold ih => apply ih h

/-- No position is reached for the first time twice. -/
theorem nodup_reachedIds (visited : Array Bool) (stack : List NodeId) :
  (reachedIds (t.visitsFrom visited stack)).Nodup
  := by
  fun_induction visitsFrom t visited stack with
  | case1 => apply List.nodup_nil
  | case2 visited top rest hget ih => apply ih
  | case3 visited top rest n hget hnew ih =>
    apply List.nodup_cons.mpr
    constructor
    · intro hmem
      have hmarked := not_marked_of_mem_reachedIds hmem
      obtain ⟨hlt, -⟩ := Array.getElem?_eq_some_iff.mp hnew
      simp [hlt] at hmarked
    · apply ih
  | case4 visited top rest n hget hold ih => apply ih

/-- The unfolding of a link that stands in front of others. -/
theorem unfolds_link_of_forall₂ {link : Option NodeId} {ids : List NodeId} {us : List Unfolding}
    (h : List.Forall₂ (fun id u => t.Unfolds (some id) u) (link.toList ++ ids) us) :
  ∃ u others, t.Unfolds link u
    ∧ List.Forall₂ (fun id u => t.Unfolds (some id) u) ids others
    ∧ us.flatMap Unfolding.ids = u.ids ++ others.flatMap Unfolding.ids
  := by
  cases link with
  | none => exact ⟨.absent, us, .absent, h, rfl⟩
  | some id =>
    cases h with
    | @cons _ u _ others hu hothers => exact ⟨u, others, hu, hothers, rfl⟩

/-- A walk that reaches only new nodes shows a finite unfolding for each position on its stack, and
what it reaches are their nodes. -/
theorem unfolds_of_allNew {visited : Array Bool} {stack : List NodeId}
    (h : AllNew (t.visitsFrom visited stack)) :
  ∃ us : List Unfolding, List.Forall₂ (fun id u => t.Unfolds (some id) u) stack us
    ∧ reachedIds (t.visitsFrom visited stack) = us.flatMap Unfolding.ids
  := by
  fun_induction visitsFrom t visited stack with
  | case1 => exact ⟨[], .nil, rfl⟩
  | case2 visited top rest hget ih =>
    obtain ⟨_, _, heq⟩ := h _ List.mem_cons_self
    cases heq
  | case3 visited top rest n hget hnew ih =>
    obtain ⟨us, hus, hids⟩ := ih (List.forall_mem_cons.mp h).2
    -- The children of the node are on top of the stack, so their unfoldings come first.
    obtain ⟨left, us, hleft, hus, hidsl⟩ := unfolds_link_of_forall₂ hus
    obtain ⟨right, us, hright, hus, hidsr⟩ := unfolds_link_of_forall₂ hus
    use .node top n.kind left right :: us, .cons (.node hget hleft hright) hus
    simp only [reachedIds, List.filterMap_cons] at hids ⊢
    rw [hids, hidsl, hidsr, List.flatMap_cons, Unfolding.ids, List.cons_append, List.append_assoc]
  | case4 visited top rest n hget hold ih =>
    obtain ⟨_, _, heq⟩ := h _ List.mem_cons_self
    cases heq

/-- If nothing is wrong with the links, then the unfolding is finite and shows every node that was
made once. -/
theorem unfolds_of_linkFindings_eq_nil (h : t.linkFindings t.visits = []) :
  ∃ u, t.Unfolds t.root u ∧ u.ids.Nodup ∧ u.ids.length = t.live
  := by
  obtain ⟨hnew, hlength⟩ := linkFindings_eq_nil_iff.mp h
  obtain ⟨us, hus, hids⟩ := unfolds_of_allNew hnew
  rw [← List.append_nil t.root.toList] at hus
  obtain ⟨u, others, hu, hothers, hflat⟩ := unfolds_link_of_forall₂ hus
  cases hothers
  rw [hflat, List.flatMap_nil, List.append_nil] at hids
  use u, hu
  constructor
  · rw [← hids]
    apply nodup_reachedIds
  · rw [← hids, reachedIds, List.length_filterMap_eq_countP, List.countP_eq_length.mpr]
    · apply hlength
    · intro visit hvisit
      obtain ⟨id, n, rfl⟩ := hnew visit hvisit
      rfl

/-! ### Trees without findings -/

/-- The unfolding of a tree in which verification finds nothing: it shows every node that was made
once, and nothing is wrong with its shape. -/
structure Verified (t : Tree) (u : Unfolding) : Prop where
  unfolds : t.Unfolds t.root u
  nodup : u.ids.Nodup
  count : u.ids.length = t.live
  isPresent : u.shape.isPresent
  findings : u.shape.findings t.vars t.funcs = []

/-- Verification finds nothing exactly if the tree has a verified unfolding. -/
theorem verify_eq_empty_iff :
  t.verify = ∅ ↔ ∃ u, t.Verified u
  := by
  constructor
  · intro h
    have hroot : t.root.isNone = false := by
      by_contra hnone
      rw [Bool.not_eq_false] at hnone
      rw [verify, hnone, if_pos rfl, Findings.ofList_eq_empty_iff] at h
      cases h
    have hlinks : t.linkFindings t.visits = [] := by
      rw [verify, hroot, if_neg Bool.false_ne_true, Findings.ofList_eq_empty_iff] at h
      simp only [List.append_eq_nil_iff] at h
      apply h.1.1
    obtain ⟨u, hu, hnodup, hcount⟩ := unfolds_of_linkFindings_eq_nil hlinks
    have hpresent : u.shape.isPresent := by
      rwa [hu.isNone_link, Bool.not_eq_false'] at hroot
    use u, hu, hnodup, hcount, hpresent
    rwa [verify_eq_of_unfolds hu hnodup hcount hpresent, Findings.ofList_eq_empty_iff] at h
  · rintro ⟨u, hu, hnodup, hcount, hpresent, hfindings⟩
    rw [verify_eq_of_unfolds hu hnodup hcount hpresent, hfindings]
    rfl

namespace Verified

variable {u : Unfolding}

theorem unfolding_eq (h : t.Verified u) :
  t.unfolding = u
  := h.unfolds.unfolding_eq

theorem shows (h : t.Verified u) :
  u.Shows u.shape
  := h.unfolds.shows

/-- The first definition that the walk meets of a function that is called takes as many parameters
as the call gives arguments. -/
theorem find?_definition (h : t.Verified u) {call : Nat × Nat}
    (hcall : call ∈ u.shape.collect Shape.callAt) :
  (u.shape.collect Shape.definitionAt).find? (·.1 == call.1) = some call
  := by
  have hnone := (List.append_eq_nil_iff.mp h.findings).2
  have hfits := List.flatMap_eq_nil_iff.mp hnone call hcall
  simp only [callFindings] at hfits
  split at hfits
  · cases hfits
  · rename_i definition hfind
    have hindex := List.find?_some hfind
    rw [hfind]
    split at hfits
    · rename_i hcount
      rw [Prod.ext (eq_of_beq hindex) hcount]
    · cases hfits

end Verified

end Tree

end StackCompiler
