import StackCompiler.Proofs.Tree.Unfolds

/-!
# Chains

A chain is made from its last item to its first one: each separator holds an item and the separator
made just before it.  The items may be any positions.  They may lead nowhere, occur several times,
or be the positions of the separators themselves; a separator that holds itself names itself as its
parent.

Of the nodes that were there, making a chain changes only the parents of its items, and it changes
nothing else of the tree but the count.
-/

namespace StackCompiler.Tree

variable {t : Tree}

/-! ### The items of a chain -/

/-- The chain that starts at a link holds the items, one in each separator, and ends with a
separator without a right child. -/
inductive IsChain (t : Tree) : Option NodeId → List NodeId → Prop where
  | nil : IsChain t none []
  | cons {id item : NodeId} {items : List NodeId} {n : Node} (hget : t.get? id = some n)
      (hkind : n.kind = .separator) (hleft : n.left = some item)
      (hright : IsChain t n.right items) : IsChain t (some id) (item :: items)

namespace IsChain

variable {head : Option NodeId} {items : List NodeId}

theorem mono (h : t.IsChain head items) {t' : Tree} (hkeeps : t.Keeps t') :
  t'.IsChain head items
  := by
  induction h with
  | nil => exact .nil
  | @cons id item items n hget hkind hleft hright ih =>
    obtain ⟨n', hget', hkind', hleft', hright'⟩ := hkeeps id n hget
    rw [← hright'] at ih
    exact .cons hget' (hkind'.trans hkind) (hleft'.trans hleft) ih

/-- Following a chain gives its items and then ends. -/
theorem chainItems_eq (h : t.IsChain head items) (limit : Nat) :
  t.chainItems head limit = (items.map some).take limit
  := by
  induction h generalizing limit with
  | nil => cases limit <;> rfl
  | @cons id item items n hget hkind hleft hright ih =>
    cases limit with
    | zero => rfl
    | succ limit =>
      rw [chainItems, Option.bind_some, hget, List.map_cons, List.take_succ_cons, ← ih, ← hleft]

end IsChain

/-! ### New chains -/

section NewChains

variable (t : Tree) (item : NodeId) (items : List NodeId)

/-- The first item is held by the separator that is made last. -/
theorem chain_cons :
  t.chain (item :: items)
    = (some (t.chain items).2.size,
        ((t.chain items).2.node .separator (some item) (t.chain items).1).2)
  := rfl

@[simp]
theorem size_chain :
  (t.chain items).2.size = t.size + items.length
  := by
  induction items with
  | nil => rfl
  | cons item items ih =>
    rw [chain_cons, size_node, ih, List.length_cons, Nat.add_assoc]

@[simp]
theorem live_chain :
  (t.chain items).2.live = t.live + items.length
  := by
  induction items with
  | nil => rfl
  | cons item items ih =>
    rw [chain_cons, live_node, ih, List.length_cons, Nat.add_assoc]

/-- A chain starts at a new node. -/
theorem size_le_of_mem_chain {id : NodeId} (h : id ∈ (t.chain items).1) :
  t.size ≤ id
  := by
  cases items with
  | nil => cases h
  | cons item items =>
    rw [chain_cons, Option.mem_some_iff, size_chain] at h
    exact h ▸ Nat.le_add_right _ _

/-- A new chain holds its items. -/
theorem isChain_chain :
  (t.chain items).2.IsChain (t.chain items).1 items
  := by
  induction items with
  | nil => exact .nil
  | cons item items ih =>
    have hkeeps := (t.chain items).2.keeps_node .separator (some item) (t.chain items).1
    obtain ⟨n, hget, hkind, hleft, hright⟩ :=
      (t.chain items).2.get?_node_size .separator (some item) (t.chain items).1
    rw [chain_cons]
    apply IsChain.cons hget hkind hleft
    rw [hright]
    exact ih.mono hkeeps

/-! ### What stays -/

/-- The separator of a new chain that holds an item, which for a repeated item is the one of its
first occurrence: that is made last. -/
def holder (id : NodeId) : NodeId :=
  t.size + (items.length - 1 - items.idxOf id)

theorem holder_cons_self :
  t.holder (item :: items) item = t.size + items.length
  := by
  simp [holder]

theorem holder_cons_of_ne {id : NodeId} (h : item ≠ id) :
  t.holder (item :: items) id = t.holder items id
  := by
  rw [holder, holder, List.idxOf_cons_ne _ h, List.length_cons, Nat.add_sub_cancel,
    Nat.succ_eq_one_add, Nat.sub_add_eq]

/-- A node that was there changes only if it is an item, and then only its parent does. -/
theorem get?_chain {id : NodeId} {n : Node} (h : t.get? id = some n) :
  (t.chain items).2.get? id
    = some (if id ∈ items then { n with parent := some (t.holder items id) } else n)
  := by
  have hlt : id < t.size := lt_size_of_get? h
  induction items with
  | nil => exact h
  | cons item items ih =>
    -- All separators come after the node, so the new one holds it only as its item.
    have hnew : id ≠ (t.chain items).2.size := by
      rw [size_chain]
      exact Nat.ne_of_lt (Nat.lt_add_right _ hlt)
    have hnext : id ∉ (t.chain items).1.toList := by
      intro hmem
      exact Nat.not_lt.mpr (t.size_le_of_mem_chain items (Option.mem_toList.mp hmem)) hlt
    rw [chain_cons, get?_node, if_neg hnew, ih, Option.map_some, size_chain]
    by_cases heq : item = id
    · subst heq
      have hitem : item ∈ (some item).toList ++ (t.chain items).1.toList := by simp
      rw [holder_cons_self, if_pos hitem, if_pos List.mem_cons_self]
      split <;> rfl
    · have hnot : id ∉ (some item).toList ++ (t.chain items).1.toList := by
        simp [hnext, Ne.symm heq]
      rw [holder_cons_of_ne t item items heq, if_neg hnot]
      simp [Ne.symm heq]

theorem adoptAll_eq (parent : NodeId) (children : List NodeId) :
  ∃ nodes, children.foldl (fun t child => t.adopt parent child) t = { t with nodes }
  := by
  induction children generalizing t with
  | nil => exact ⟨t.nodes, rfl⟩
  | cons child children ih =>
    obtain ⟨nodes, hnodes⟩ := ih (t.adopt parent child)
    use nodes
    rw [List.foldl_cons, hnodes]
    unfold adopt
    split <;> rfl

/-- A new node changes nothing of a tree but its nodes and their number. -/
theorem node_eq (kind : NodeKind) (left right : Option NodeId) :
  ∃ nodes, (t.node kind left right).2 = { t with nodes, live := t.live + 1 }
  := adoptAll_eq { t with nodes := t.nodes.push { kind, left, right }, live := t.live + 1 } t.size
      (left.toList ++ right.toList)

theorem chain_eq :
  ∃ nodes, (t.chain items).2 = { t with nodes, live := t.live + items.length }
  := by
  induction items with
  | nil => exact ⟨t.nodes, rfl⟩
  | cons item items ih =>
    obtain ⟨before, hbefore⟩ := ih
    obtain ⟨nodes, hnodes⟩ := (t.chain items).2.node_eq .separator (some item) (t.chain items).1
    use nodes
    rw [chain_cons, hnodes, hbefore, List.length_cons, ← Nat.add_assoc]

end NewChains

/-- A new chain holds its items in order, whatever positions they are, and then ends.  The arena and
the count grow by one for each item.  A node that was there stays as it was, except that an item has
the separator that holds it for its parent; nothing else of the tree changes. -/
theorem chain_holds_items (t : Tree) (items : List NodeId) :
  (t.chain items).2.IsChain (t.chain items).1 items
    ∧ (∀ limit, (t.chain items).2.chainItems (t.chain items).1 limit = (items.map some).take limit)
    ∧ (t.chain items).2.size = t.size + items.length
    ∧ (t.chain items).2.live = t.live + items.length
    ∧ (∀ id n, t.get? id = some n →
        (t.chain items).2.get? id
          = some (if id ∈ items then { n with parent := some (t.holder items id) } else n))
    ∧ ∃ nodes, (t.chain items).2 = { t with nodes, live := t.live + items.length }
  := by
  have hchain := t.isChain_chain items
  exact ⟨hchain, hchain.chainItems_eq, t.size_chain items, t.live_chain items,
    fun id n => t.get?_chain items, t.chain_eq items⟩

-- a separator may hold itself, or one that is made after it
example :
  (({} : Tree).chain [0, 0, 2]).2.nodes
    = #[{ kind := .separator, left := some 2, parent := some 2 },
      { kind := .separator, left := some 0, right := some 0, parent := some 2 },
      { kind := .separator, left := some 0, right := some 1 }]
  := by
  decide

end StackCompiler.Tree
