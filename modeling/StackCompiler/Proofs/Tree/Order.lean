import StackCompiler.Proofs.Tree.Links

/-!
# Paths and the order of the arena

A path is a sequence of sides, taken one after another from the root.  If the links form a tree,
then exactly one path leads to each position that can be reached.

If the arena is one tree that grew by nodes that join others, then more is known of it: children
come before the node that holds them, every node but the root names the node that holds it, and the
root is the last node.
-/

namespace StackCompiler.Tree

variable {t : Tree}

/-! ### Paths -/

/-- The position that a path leads to from the root. -/
def along? (t : Tree) (path : List Side) : Option NodeId :=
  path.foldl (fun link side => link.bind fun id => t.target? (id, side)) t.root

theorem along?_concat (path : List Side) (side : Side) :
  t.along? (path ++ [side]) = (t.along? path).bind fun id => t.target? (id, side)
  := by
  rw [along?, List.foldl_concat, along?]

/-- Paths lead to the positions that can be reached. -/
theorem reachable_iff_along? {id : NodeId} :
  t.Reachable id ↔ ∃ path, t.along? path = some id
  := by
  constructor
  · intro h
    induction h with
    | root hroot => exact ⟨[], hroot⟩
    | @target slot id hslot htarget ih =>
      obtain ⟨path, hpath⟩ := ih
      use path ++ [slot.2]
      rw [along?_concat, hpath, Option.bind_some, htarget]
  · rintro ⟨path, hpath⟩
    induction path using List.reverseRecOn generalizing id with
    | nil => apply Reachable.root hpath
    | append_singleton path side ih =>
      rw [along?_concat] at hpath
      obtain ⟨holder, hholder, htarget⟩ := Option.bind_eq_some_iff.mp hpath
      apply Reachable.target (ih hholder) htarget

/-- The last step of a path is a slot that leads to its end. -/
theorem leadsTo_of_along? {path : List Side} {side : Side} {id : NodeId}
    (h : t.along? (path ++ [side]) = some id) :
  ∃ holder, t.along? path = some holder ∧ t.LeadsTo (holder, side) id
  := by
  rw [along?_concat] at h
  obtain ⟨holder, hholder, htarget⟩ := Option.bind_eq_some_iff.mp h
  exact ⟨holder, hholder, reachable_iff_along?.mpr ⟨path, hholder⟩, htarget⟩

namespace WellLinked

variable {root : NodeId}

/-- Two paths to the same position are the same. -/
theorem path_unique (h : t.WellLinked root) (hroot : t.root = some root) {path path' : List Side}
    {id : NodeId} (hpath : t.along? path = some id) (hpath' : t.along? path' = some id) :
  path = path'
  := by
  have hfree : ∀ (path : List Side) (side : Side), t.along? (path ++ [side]) ≠ some root := by
    intro path side hpath
    obtain ⟨holder, -, hleads⟩ := leadsTo_of_along? hpath
    apply h.root_free _ hleads
  -- The last steps of the paths are the one slot that leads to their end.
  induction path using List.reverseRecOn generalizing path' id with
  | nil =>
    obtain rfl := Option.some.inj (hroot.symm.trans hpath)
    rcases List.eq_nil_or_concat' path' with rfl | ⟨before, side, rfl⟩
    · rfl
    · cases hfree before side hpath'
  | append_singleton path side ih =>
    obtain ⟨holder, hholder, hleads⟩ := leadsTo_of_along? hpath
    have hne : id ≠ root := by
      rintro rfl
      apply hfree path side hpath
    rcases List.eq_nil_or_concat' path' with rfl | ⟨before, side', rfl⟩
    · cases hne (Option.some.inj (hpath'.symm.trans hroot))
    · obtain ⟨holder', hholder', hleads'⟩ := leadsTo_of_along? hpath'
      have hslot := (h.unique id (.target hleads.1 hleads.2) hne).unique hleads hleads'
      obtain ⟨rfl, rfl⟩ := Prod.mk.inj hslot
      rw [ih hholder hholder']

/-- Exactly one path leads to a position that can be reached. -/
theorem existsUnique_path (h : t.WellLinked root) (hroot : t.root = some root) {id : NodeId}
    (hid : t.Reachable id) :
  ∃! path, t.along? path = some id
  := by
  obtain ⟨path, hpath⟩ := reachable_iff_along?.mp hid
  use path, hpath
  intro path' hpath'
  apply h.path_unique hroot hpath' hpath

end WellLinked

/-! ### Ordered arenas -/

/-- A tree that is its whole arena, with the nodes in the order in which they were made: a node
comes after its children, is held by one slot of the node that it names as its parent unless it is
the root, and is the end of one path. -/
structure Ordered (t : Tree) : Prop where
  live : t.live = t.size
  child_lt : ∀ slot id, t.target? slot = some id → id < slot.1
  held : ∀ id < t.size, t.root ≠ some id →
    (∃! slot, t.target? slot = some id)
      ∧ ∀ slot, t.target? slot = some id → t.parent? id = some slot.1
  root_last : ∀ root, t.root = some root → root + 1 = t.size ∧ t.parent? root = none
  path : ∀ id < t.size, ∃! path, t.along? path = some id

theorem mem_children_of_target? {slot : NodeId × Side} {id : NodeId}
    (h : t.target? slot = some id) :
  ∃ n, t.get? slot.1 = some n ∧ id ∈ n.children
  := by
  obtain ⟨holder, side⟩ := slot
  obtain ⟨n, hget, hchild⟩ := Option.bind_eq_some_iff.mp h
  use n, hget
  cases side with
  | left => apply List.mem_append_left _ (Option.mem_toList.mpr hchild)
  | right => apply List.mem_append_right _ (Option.mem_toList.mpr hchild)

namespace Parts

variable {u : Unfolding}

/-- Every node of an arena that is one tree can be reached. -/
theorem reachable (h : t.Parts {(t.root, u)}) {id : NodeId} (hid : id < t.size) :
  t.Reachable id
  := by
  apply mem_visits_iff.mp
  rw [visits_eq h.unfolds_single h.nodup_ids]
  apply List.mem_map.mpr
  have hvisit : t.firstVisit? id = some (.reached id t.nodes[id]) := by
    rw [firstVisit?, get?, Array.getElem?_eq_getElem hid, Option.map_some]
  use .reached id t.nodes[id]
  use List.mem_filterMap.mpr ⟨id, h.ids_perm.mem_iff.mpr (List.mem_range.mpr hid), hvisit⟩
  rfl

/-- An arena without a root that is one tree is empty. -/
theorem size_eq_zero (h : t.Parts {(t.root, u)}) (hroot : t.root = none) :
  t.size = 0
  := by
  have hu := h.unfolds_single
  rw [hroot] at hu
  cases hu
  have hlength := h.ids_perm.length_eq
  rw [List.length_range] at hlength
  apply hlength.symm

/-- An arena that is one tree is ordered. -/
theorem ordered (h : t.Parts {(t.root, u)}) :
  t.Ordered
  := by
  have hchild : ∀ slot id, t.target? slot = some id → id < slot.1 := by
    intro slot id htarget
    obtain ⟨n, hget, hmem⟩ := mem_children_of_target? htarget
    apply h.adopts.child_lt slot.1 n hget id hmem
  cases hroot : t.root with
  | none =>
    have hsize := h.size_eq_zero hroot
    constructor
    · apply h.adopts.live
    · apply hchild
    · simp [hsize]
    · simp [hroot]
    · simp [hsize]
  | some root =>
    have hlinked : t.WellLinked root := by
      apply (linkFindings_eq_nil_iff_wellLinked hroot).mp
      apply linkFindings_eq_nil h.unfolds_single h.nodup_ids h.length_ids
    have hheld : ∀ id < t.size, id ≠ root → ∃! slot, t.target? slot = some id := by
      intro id hid hne
      obtain ⟨slot, hslot, hunique⟩ := hlinked.unique id (h.reachable hid) hne
      use slot, hslot.2
      intro slot' hslot'
      apply hunique slot' ⟨h.reachable (lt_size_of_target? hslot'), hslot'⟩
    constructor
    · apply h.adopts.live
    · apply hchild
    · intro id hid hne
      use hheld id hid (fun heq => hne (heq ▸ hroot))
      intro slot htarget
      obtain ⟨n, hget, hmem⟩ := mem_children_of_target? htarget
      apply h.adopts.parent slot.1 n hget id hmem
    · intro root' heq
      obtain rfl := Option.some.inj (hroot.symm.trans heq)
      have hlt := hlinked.root_lt
      constructor
      · -- The last node is held by no node, since that would come after it.
        have hpos : 0 < t.size := Nat.zero_lt_of_lt hlt
        by_contra hne
        have hlast : t.size - 1 ≠ root := by
          rintro rfl
          apply hne (Nat.sub_add_cancel hpos)
        obtain ⟨slot, hslot, -⟩ := hheld (t.size - 1) (Nat.sub_one_lt_of_lt hpos) hlast
        have hafter := hchild slot _ hslot
        have hbefore := Nat.le_sub_one_of_lt (lt_size_of_target? hslot)
        apply Nat.lt_irrefl _ (Nat.lt_of_lt_of_le hafter hbefore)
      · have hfree := h.free _ (Multiset.mem_singleton_self _)
        rwa [hroot] at hfree
    · intro id hid
      apply hlinked.existsUnique_path hroot (h.reachable hid)

end Parts

end StackCompiler.Tree
