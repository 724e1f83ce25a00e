import Mathlib.Data.List.ProdSigma
import Mathlib.Data.Set.Card
import StackCompiler.Proofs.Exchange.Worklist
import StackCompiler.Proofs.Tree.Verified

/-!
# Links

The links of a tree as a graph.  A node has two slots, and each of them may hold a link to a target.
A position can be reached if it is the root or the target of a slot of a node that can be reached.

The walk of verification meets the root, and the target of each slot of each node that it reaches,
once for each slot.  So it meets exactly what can be reached, and it meets only new nodes exactly if
no two of these slots have the same target and none has the root as its target.
-/

namespace StackCompiler

/-- One of the two slots of a node. -/
inductive Side where
  | left
  | right
deriving DecidableEq

/-- The link in a slot of a node. -/
def Node.child (n : Node) : Side → Option NodeId
  | .left => n.left
  | .right => n.right

/-- The position that a step of the walk meets. -/
def Visit.id : Visit → NodeId
  | reached id _ => id
  | again id => id
  | dangling id => id

namespace Tree

/-- The target of a slot, if its node is in the arena and holds a link there. -/
def target? (t : Tree) (slot : NodeId × Side) : Option NodeId :=
  (t.get? slot.1).bind (·.child slot.2)

/-- The slots of the nodes at the given positions. -/
def slots (ids : List NodeId) : List (NodeId × Side) :=
  ids ×ˢ [.left, .right]

/-- Positions that links lead to from the root, inside the arena or not. -/
inductive Reachable (t : Tree) : NodeId → Prop where
  | root {id : NodeId} (hroot : t.root = some id) : Reachable t id
  | target {slot : NodeId × Side} {id : NodeId} (hslot : Reachable t slot.1)
      (htarget : t.target? slot = some id) : Reachable t id

/-- The slots with a given target, of nodes that can be reached. -/
def LeadsTo (t : Tree) (slot : NodeId × Side) (id : NodeId) : Prop :=
  t.Reachable slot.1 ∧ t.target? slot = some id

/-- The links form a tree with as many nodes as were made: the root and all targets are in the
arena, no slot leads to the root, and exactly one slot leads to any other node. -/
structure WellLinked (t : Tree) (root : NodeId) : Prop where
  root_lt : root < t.size
  target_lt : ∀ slot id, t.LeadsTo slot id → id < t.size
  root_free : ∀ slot, ¬ t.LeadsTo slot root
  unique : ∀ id, t.Reachable id → id ≠ root → ∃! slot, t.LeadsTo slot id
  count : {id | t.Reachable id}.encard = t.live

variable {t : Tree}

theorem mem_slots {ids : List NodeId} {slot : NodeId × Side} :
  slot ∈ slots ids ↔ slot.1 ∈ ids
  := by
  obtain ⟨id, side⟩ := slot
  cases side <;> simp [slots, List.mem_product]

theorem nodup_slots {ids : List NodeId} (h : ids.Nodup) :
  (slots ids).Nodup
  := h.product (by decide)

theorem lt_size_of_target? {slot : NodeId × Side} {id : NodeId} (h : t.target? slot = some id) :
  slot.1 < t.size
  := by
  obtain ⟨n, hget, -⟩ := Option.bind_eq_some_iff.mp h
  apply lt_size_of_get? hget

/-- The targets of the slots of a node are its children. -/
theorem filterMap_target? {id : NodeId} {n : Node} (h : t.get? id = some n) (ids : List NodeId) :
  (slots (id :: ids)).filterMap t.target?
    = n.left.toList ++ (n.right.toList ++ (slots ids).filterMap t.target?)
  := by
  have hleft : t.target? (id, .left) = n.left := by rw [target?, h]; rfl
  have hright : t.target? (id, .right) = n.right := by rw [target?, h]; rfl
  rw [slots, List.product_cons, List.filterMap_append, ← slots]
  simp only [List.map_cons, List.map_nil, List.filterMap_cons, List.filterMap_nil, hleft, hright]
  cases n.left <;> cases n.right <;> rfl

/-! ### What the walk meets -/

theorem lt_size_of_mem_reachedIds {visited : Array Bool} {stack : List NodeId} {id : NodeId}
    (h : id ∈ reachedIds (t.visitsFrom visited stack)) :
  id < t.size
  := by
  fun_induction visitsFrom t visited stack with
  | case1 => cases h
  | case2 visited top rest hget ih => apply ih h
  | case3 visited top rest n hget hnew ih =>
    rcases List.mem_cons.mp h with rfl | h
    · apply lt_size_of_get? hget
    · apply ih h
  | case4 visited top rest n hget hold ih => apply ih h

/-- The walk meets what is on its stack and the targets of all slots of the nodes it reaches. -/
theorem map_id_visitsFrom_perm (visited : Array Bool) (stack : List NodeId) :
  ((t.visitsFrom visited stack).map Visit.id).Perm
    (stack ++ (slots (reachedIds (t.visitsFrom visited stack))).filterMap t.target?)
  := by
  fun_induction visitsFrom t visited stack with
  | case1 => apply List.Perm.nil
  | case2 visited top rest hget ih => apply ih.cons
  | case3 visited top rest n hget hnew ih =>
    -- The targets of the slots of the node are on top of the stack now.
    rw [reachedIds, List.filterMap_cons, ← reachedIds, filterMap_target? hget, List.map_cons]
    apply List.Perm.cons
    apply ih.trans
    rw [List.append_assoc, List.append_assoc]
    apply ((List.perm_append_comm_assoc n.right.toList rest _).append_left _).trans
    apply List.perm_append_comm_assoc
  | case4 visited top rest n hget hold ih => apply ih.cons

/-- A node that the walk meets is reached if it was not marked before. -/
theorem mem_reachedIds_of_mem {visited : Array Bool} {stack : List NodeId} {id : NodeId} {n : Node}
    (h : id ∈ (t.visitsFrom visited stack).map Visit.id) (hget : t.get? id = some n)
    (hmark : visited[id]? = some false) :
  id ∈ reachedIds (t.visitsFrom visited stack)
  := by
  fun_induction visitsFrom t visited stack with
  | case1 => cases h
  | case2 visited top rest hnone ih =>
    rcases List.mem_cons.mp h with heq | h
    · obtain rfl : id = top := heq
      rw [hnone] at hget
      cases hget
    · apply ih h hmark
  | case3 visited top rest n hget hnew ih =>
    by_cases heq : top = id
    · subst heq
      apply List.mem_cons_self
    · apply List.mem_cons_of_mem
      apply ih
      · apply List.mem_of_ne_of_mem (Ne.symm heq) h
      · rwa [Array.getElem?_setIfInBounds_ne heq]
  | case4 visited top rest n hget hold ih =>
    rcases List.mem_cons.mp h with rfl | h
    · cases hold hmark
    · apply ih h hmark

/-! ### What can be reached -/

/-- Whatever the walk meets can be reached if that holds of its stack. -/
theorem reachable_of_mem_visitsFrom {visited : Array Bool} {stack : List NodeId}
    (hstack : ∀ id ∈ stack, t.Reachable id) :
  ∀ id ∈ (t.visitsFrom visited stack).map Visit.id, t.Reachable id
  := by
  fun_induction visitsFrom t visited stack with
  | case1 => simp
  | case2 visited top rest hget ih =>
    obtain ⟨htop, hrest⟩ := List.forall_mem_cons.mp hstack
    exact List.forall_mem_cons.mpr ⟨htop, ih hrest⟩
  | case3 visited top rest n hget hnew ih =>
    obtain ⟨htop, hrest⟩ := List.forall_mem_cons.mp hstack
    have hchild : ∀ side, ∀ id ∈ (n.child side).toList, t.Reachable id := by
      intro side id hid
      apply @Reachable.target t (top, side) id htop
      rw [target?, hget, Option.bind_some, ← Option.mem_toList.mp hid]
    apply List.forall_mem_cons.mpr ⟨htop, ih _⟩
    intro id hid
    simp only [List.mem_append] at hid
    rcases hid with hid | hid | hid
    · apply hchild .left id hid
    · apply hchild .right id hid
    · apply hrest id hid
  | case4 visited top rest n hget hold ih =>
    obtain ⟨htop, hrest⟩ := List.forall_mem_cons.mp hstack
    exact List.forall_mem_cons.mpr ⟨htop, ih hrest⟩

/-- The walk from the root meets the root and the targets of all slots of the nodes it reaches. -/
theorem map_id_visits_perm :
  (t.visits.map Visit.id).Perm
    (t.root.toList ++ (slots (reachedIds t.visits)).filterMap t.target?)
  := map_id_visitsFrom_perm _ _

/-- The walk from the root meets exactly what can be reached. -/
theorem mem_visits_iff {id : NodeId} :
  id ∈ t.visits.map Visit.id ↔ t.Reachable id
  := by
  constructor
  · apply reachable_of_mem_visitsFrom
    intro top htop
    apply Reachable.root (Option.mem_toList.mp htop)
  · intro h
    apply map_id_visits_perm.mem_iff.mpr
    induction h with
    | root hroot =>
      apply List.mem_append_left
      apply Option.mem_toList.mpr hroot
    | @target slot id hslot htarget ih =>
      apply List.mem_append_right
      apply List.mem_filterMap.mpr ⟨slot, mem_slots.mpr _, htarget⟩
      obtain ⟨n, hget, -⟩ := Option.bind_eq_some_iff.mp htarget
      apply mem_reachedIds_of_mem (map_id_visits_perm.mem_iff.mpr ih) hget
      have hlt := lt_size_of_get? hget
      simp [hlt]

/-- The walk from the root reaches the nodes that can be reached. -/
theorem mem_reachedIds_iff {id : NodeId} :
  id ∈ reachedIds t.visits ↔ t.Reachable id ∧ id < t.size
  := by
  constructor
  · intro h
    constructor
    · obtain ⟨visit, hvisit, heq⟩ := List.mem_filterMap.mp h
      apply mem_visits_iff.mp (List.mem_map.mpr ⟨visit, hvisit, _⟩)
      cases visit with
      | reached id n => apply Option.some.inj heq
      | again id => cases heq
      | dangling id => cases heq
    · apply lt_size_of_mem_reachedIds h
  · rintro ⟨h, hlt⟩
    apply mem_reachedIds_of_mem (mem_visits_iff.mpr h)
    · apply Array.getElem?_eq_getElem hlt
    · simp [hlt]

/-- The slots whose targets the walk meets are the slots that lead somewhere. -/
theorem leadsTo_iff {slot : NodeId × Side} {id : NodeId} :
  t.LeadsTo slot id ↔ slot ∈ slots (reachedIds t.visits) ∧ t.target? slot = some id
  := by
  rw [mem_slots, mem_reachedIds_iff, LeadsTo]
  constructor
  · rintro ⟨hreach, htarget⟩
    exact ⟨⟨hreach, lt_size_of_target? htarget⟩, htarget⟩
  · rintro ⟨⟨hreach, -⟩, htarget⟩
    exact ⟨hreach, htarget⟩

/-- The walk takes no more steps than the arena has slots, and one for the root. -/
theorem length_visits_le :
  t.visits.length ≤ 2 * t.size + 1
  := by
  have hroot : t.root.toList.length ≤ 1 := by cases t.root <;> simp
  have hreached : (reachedIds t.visits).length ≤ t.size := by
    rw [← List.length_range (n := t.size)]
    apply ((nodup_reachedIds _ _).subperm _).length_le
    intro id hid
    apply List.mem_range.mpr (lt_size_of_mem_reachedIds hid)
  have htargets : ((slots (reachedIds t.visits)).filterMap t.target?).length
      ≤ (reachedIds t.visits).length * 2 := by
    apply (List.length_filterMap_le _ _).trans
    rw [slots, List.length_product]
    rfl
  rw [← List.length_map Visit.id, map_id_visits_perm.length_eq, List.length_append]
  omega

/-! ### Walks that meet no node twice -/

/-- The walk reaches only new nodes exactly if it never meets a position twice and never leaves the
arena. -/
theorem allNew_iff :
  AllNew t.visits ↔ (t.visits.map Visit.id).Nodup ∧ ∀ id, t.Reachable id → id < t.size
  := by
  constructor
  · intro h
    have heq : t.visits.map Visit.id = reachedIds t.visits := by
      rw [reachedIds, ← List.filterMap_eq_map]
      apply List.filterMap_congr
      intro visit hvisit
      obtain ⟨id, n, rfl⟩ := h visit hvisit
      rfl
    constructor
    · rw [heq]
      apply nodup_reachedIds
    · intro id hid
      rw [← mem_visits_iff, heq] at hid
      apply lt_size_of_mem_reachedIds hid
  · rintro ⟨hnodup, hlt⟩ visit hvisit
    have hreach : t.Reachable visit.id := mem_visits_iff.mp (List.mem_map_of_mem hvisit)
    -- The node of the step is reached by some step, which is this one.
    obtain ⟨first, hfirst, hid⟩ :=
      List.mem_filterMap.mp (mem_reachedIds_iff.mpr ⟨hreach, hlt _ hreach⟩)
    cases first with
    | reached id n =>
      use id, n
      apply List.inj_on_of_nodup_map hnodup hvisit hfirst
      apply (Option.some.inj hid).symm
    | again id => cases hid
    | dangling id => cases hid

/-- The walk from a root meets no position twice exactly if no slot leads to the root and no two
slots have the same target. -/
theorem nodup_visits_iff {root : NodeId} (hroot : t.root = some root) :
  (t.visits.map Visit.id).Nodup
    ↔ (∀ slot, ¬ t.LeadsTo slot root)
      ∧ ∀ slot slot' id, t.LeadsTo slot id → t.LeadsTo slot' id → slot = slot'
  := by
  have hslots := nodup_slots
    (nodup_reachedIds (t := t) (Array.replicate t.size false) t.root.toList)
  rw [map_id_visits_perm.nodup_iff, hroot, Option.toList_some, List.singleton_append,
    List.nodup_cons]
  apply and_congr
  · simp only [List.mem_filterMap, not_exists, leadsTo_iff]
  · rw [List.Nodup, List.pairwise_filterMap]
    constructor
    · intro h slot slot' id hslot hslot'
      rw [leadsTo_iff] at hslot hslot'
      by_contra hne
      have hsymm : Std.Symm fun slot slot' =>
          ∀ id, t.target? slot = some id → ∀ id', t.target? slot' = some id' → id ≠ id' :=
        ⟨fun _ _ h id hid id' hid' => (h id' hid' id hid).symm⟩
      apply h.forall hslot.1 hslot'.1 hne id hslot.2 id hslot'.2 rfl
    · intro h
      apply hslots.pairwise_of_forall_ne
      rintro slot hslot slot' hslot' hne id hid id' hid' rfl
      apply hne (h slot slot' id (leadsTo_iff.mpr ⟨hslot, hid⟩) (leadsTo_iff.mpr ⟨hslot', hid'⟩))

/-- A position that can be reached is the root, or some slot leads to it. -/
theorem Reachable.cases_root {root id : NodeId} (hroot : t.root = some root) (h : t.Reachable id) :
  id = root ∨ ∃ slot, t.LeadsTo slot id
  := by
  cases h with
  | root h => exact .inl (Option.some.inj (h.symm.trans hroot))
  | @target slot _ hslot htarget => exact .inr ⟨slot, hslot, htarget⟩

/-- As many positions can be reached as the walk takes steps, if it reaches only new nodes. -/
theorem encard_reachable (h : AllNew t.visits) :
  {id | t.Reachable id}.encard = t.visits.length
  := by
  classical
  obtain ⟨hnodup, -⟩ := allNew_iff.mp h
  have hset : {id | t.Reachable id} = ((t.visits.map Visit.id).toFinset : Set NodeId) := by
    ext id
    rw [Set.mem_ofPred_eq, Finset.mem_coe, List.mem_toFinset, mem_visits_iff]
  rw [hset, Set.encard_coe_eq_coe_finsetCard, List.toFinset_card_of_nodup hnodup, List.length_map]

/-- Nothing is wrong with the links exactly if they form a tree with as many nodes as were made. -/
theorem linkFindings_eq_nil_iff_wellLinked {root : NodeId} (hroot : t.root = some root) :
  t.linkFindings t.visits = [] ↔ t.WellLinked root
  := by
  rw [linkFindings_eq_nil_iff]
  constructor
  · rintro ⟨hnew, hlength⟩
    obtain ⟨hnodup, hlt⟩ := allNew_iff.mp hnew
    obtain ⟨hfree, hinj⟩ := (nodup_visits_iff hroot).mp hnodup
    constructor
    · apply hlt root (.root hroot)
    · intro slot id h
      apply hlt id (.target h.1 h.2)
    · apply hfree
    · intro id hid hne
      obtain ⟨slot, hslot⟩ := (hid.cases_root hroot).resolve_left hne
      use slot, hslot
      intro slot' hslot'
      apply hinj slot' slot id hslot' hslot
    · rw [encard_reachable hnew, hlength]
  · intro h
    have hnew : AllNew t.visits := by
      apply allNew_iff.mpr
      constructor
      · apply (nodup_visits_iff hroot).mpr
        use h.root_free
        intro slot slot' id hslot hslot'
        apply (h.unique id (.target hslot.1 hslot.2) _).unique hslot hslot'
        rintro rfl
        apply h.root_free slot hslot
      · intro id hid
        rcases hid.cases_root hroot with rfl | ⟨slot, hslot⟩
        · apply h.root_lt
        · apply h.target_lt slot id hslot
    use hnew
    have hcount := h.count
    rw [encard_reachable hnew] at hcount
    apply Nat.cast_injective hcount

/-! ### The finding -/

theorem cycleFound_not_mem_nodeFindings (n : Node) :
  .cycleFound ∉ t.nodeFindings n
  := by
  unfold nodeFindings
  cases n.kind <;> grind

theorem cycleFound_not_mem_callFindings (definitions : List (Nat × Nat)) (call : Nat × Nat) :
  .cycleFound ∉ callFindings definitions call
  := by
  unfold callFindings
  grind

/-- Verification finds a cycle exactly if something is wrong with the links. -/
theorem contains_cycleFound_iff {root : NodeId} (hroot : t.root = some root) :
  t.verify.contains .cycleFound ↔ t.linkFindings t.visits ≠ []
  := by
  rw [verify, hroot, Option.isNone_some, if_neg Bool.false_ne_true, Findings.contains_ofList]
  simp only [List.mem_append, List.mem_flatMap, cycleFound_not_mem_nodeFindings,
    cycleFound_not_mem_callFindings, and_false, exists_false, or_false]
  rw [linkFindings]
  split <;> simp

/-- The walk of verification ends after at most as many steps as the arena has slots, and one more.
It finds no cycle exactly if the links form a tree with as many nodes as were made.  Then the
unfolding is finite, and the loop that writes the tree ends, with each of these nodes written
once. -/
theorem cycleFound_exact {root : NodeId} (hroot : t.root = some root) :
  t.visits.length ≤ 2 * t.size + 1
    ∧ (t.verify.contains .cycleFound = false ↔ t.WellLinked root)
    ∧ (t.verify.contains .cycleFound = false →
        ∃ u final, t.Unfolds t.root u ∧ Writer.Ends t (.start t) final
          ∧ final.text ++ "\n" = t.dump
          ∧ final.written.Nodup ∧ final.written.length = t.live)
  := by
  have hlinks : t.verify.contains .cycleFound = false ↔ t.linkFindings t.visits = [] := by
    rw [← Bool.not_eq_true, contains_cycleFound_iff hroot, not_not]
  use length_visits_le
  constructor
  · rw [hlinks, linkFindings_eq_nil_iff_wellLinked hroot]
  · intro hnone
    obtain ⟨u, hu, hnodup, hlive⟩ := unfolds_of_linkFindings_eq_nil (hlinks.mp hnone)
    obtain ⟨final, hends, htext, hwritten⟩ := Writer.ends_of_unfolds hu
    use u, final, hu, hends, htext
    rw [hwritten]
    exact ⟨hnodup, hlive⟩

/-- A sum whose operands come after it in the arena, the second one first. -/
def crossedSum : Tree where
  nodes := #[{ kind := .binary (.arithmetic .add), left := some 2, right := some 1 },
    { kind := .number (.ofNat 1) }, { kind := .number (.ofNat 2) }]
  root := some 0

/-- The order of the nodes in the arena does not matter, and a link back to the root does. -/
theorem cycleFound_exact_crossedSum :
  crossedSum.WellLinked 0
    ∧ (∃ u final, crossedSum.Unfolds (some 0) u ∧ Writer.Ends crossedSum (.start crossedSum) final
        ∧ final.text ++ "\n" = crossedSum.dump
        ∧ final.written.Nodup ∧ final.written.length = 3)
    ∧ ¬ (crossedSum.setChildren 1 (some 0) none).WellLinked 0
  := by
  have hnone : crossedSum.verify.contains .cycleFound = false := by decide +kernel
  have hfound : (crossedSum.setChildren 1 (some 0) none).verify.contains .cycleFound = true := by
    decide +kernel
  obtain ⟨-, hiff, hwritten⟩ := @cycleFound_exact crossedSum 0 rfl
  obtain ⟨-, hback, -⟩ := @cycleFound_exact (crossedSum.setChildren 1 (some 0) none) 0 rfl
  use hiff.mp hnone, hwritten hnone
  rw [← hback, hfound]
  decide

end Tree

end StackCompiler
