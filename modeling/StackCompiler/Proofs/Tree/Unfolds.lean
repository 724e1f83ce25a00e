import Mathlib.Data.List.Nodup
import Mathlib.Data.Multiset.Bind
import Mathlib.Data.Multiset.Range
import StackCompiler.Tree.Unfolding

/-!
# Finite unfoldings

`t.Unfolds link u` says that following all links from `link` comes to an end, never leads outside
the arena, and shows `u`.  Such an unfolding is no deeper than the arena is large, so it is the one
that `unfoldFrom` computes.

`t.Holds forest` says that the arena is the disjoint union of trees with the given links and
shapes.  A new node that takes two of these trees as its children leaves the other trees as they
are.
-/

/-- An element with a given image comes from an element. -/
theorem Multiset.exists_of_map_eq_cons {α β : Type*} {f : α → β} {s : Multiset α} {b : β}
    {rest : Multiset β} (h : s.map f = b ::ₘ rest) :
  ∃ a others, s = a ::ₘ others ∧ f a = b ∧ others.map f = rest
  := by
  classical
  obtain ⟨a, hmem, heq, hrest⟩ := (Multiset.map_eq_cons f s rest b).mpr h
  use a, s.erase a, (Multiset.cons_erase hmem).symm

namespace StackCompiler

/-- What an unfolding shows apart from the positions of its nodes. -/
inductive Shape where
  | absent
  | node (kind : NodeKind) (left right : Shape)
deriving DecidableEq, Inhabited

namespace Shape

/-- The chain that holds the given items. -/
def chain : List Shape → Shape
  | [] => absent
  | item :: items => node .separator item (chain items)

/-- The items of a chain. -/
def items : Shape → List Shape
  | absent => []
  | node _ left right => left :: right.items

/-- The kind of the topmost node. -/
def kind? : Shape → Option NodeKind
  | absent => none
  | node kind _ _ => some kind

@[simp]
theorem items_chain (items : List Shape) :
  (chain items).items = items
  := by
  induction items with
  | nil => rfl
  | cons item items ih => simp only [chain, Shape.items, ih]

end Shape

namespace Unfolding

/-- The shape of an unfolding; a link that leads outside the arena or is not followed counts as
absent. -/
def shape : Unfolding → Shape
  | absent => .absent
  | dangling _ => .absent
  | cut _ => .absent
  | node _ kind left right => .node kind left.shape right.shape

/-- The positions of the nodes, a node before what hangs on it and left before right. -/
def ids : Unfolding → List NodeId
  | absent => []
  | dangling _ => []
  | cut _ => []
  | node id _ left right => id :: (left.ids ++ right.ids)

/-- A longest path from the topmost node downwards. -/
def longestPath : Unfolding → List NodeId
  | absent => []
  | dangling _ => []
  | cut _ => []
  | node id _ left right =>
    id :: if left.longestPath.length ≤ right.longestPath.length then right.longestPath
      else left.longestPath

theorem longestPath_subset_ids (u : Unfolding) :
  u.longestPath ⊆ u.ids
  := by
  induction u with
  | absent => apply List.Subset.refl
  | dangling id => apply List.Subset.refl
  | cut id => apply List.Subset.refl
  | node id kind left right ihl ihr =>
    simp only [longestPath, ids]
    apply List.cons_subset_cons
    split
    · apply List.subset_append_of_subset_right _ ihr
    · apply List.subset_append_of_subset_left _ ihl

theorem longestPath_left_le (id : NodeId) (kind : NodeKind) (left right : Unfolding) :
  left.longestPath.length + 1 ≤ (node id kind left right).longestPath.length
  := by
  simp only [longestPath, List.length_cons]
  split <;> omega

theorem longestPath_right_le (id : NodeId) (kind : NodeKind) (left right : Unfolding) :
  right.longestPath.length + 1 ≤ (node id kind left right).longestPath.length
  := by
  simp only [longestPath, List.length_cons]
  split <;> omega

/-- The unfolding has a given shape, every link is followed, and none leads outside the arena. -/
inductive Shows : Unfolding → Shape → Prop where
  | absent : Shows .absent .absent
  | node (id : NodeId) {kind : NodeKind} {left right : Unfolding} {l r : Shape}
      (hleft : left.Shows l) (hright : right.Shows r) :
      Shows (.node id kind left right) (.node kind l r)

theorem Shows.shape_eq {u : Unfolding} {s : Shape} (h : u.Shows s) :
  u.shape = s
  := by
  induction h with
  | absent => rfl
  | node id hleft hright ihl ihr => rw [shape, ihl, ihr]

end Unfolding

namespace Tree

/-- Another tree has the nodes of a tree at the same positions, with the same kinds and children. -/
def Keeps (t t' : Tree) : Prop :=
  ∀ id n, t.get? id = some n →
    ∃ n', t'.get? id = some n' ∧ n'.kind = n.kind ∧ n'.left = n.left ∧ n'.right = n.right

theorem lt_size_of_get? {t : Tree} {id : NodeId} {n : Node} (h : t.get? id = some n) :
  id < t.size
  := by
  obtain ⟨hlt, -⟩ := Array.getElem?_eq_some_iff.mp h
  apply hlt

/-- Following all links from a link ends inside the arena and shows an unfolding. -/
inductive Unfolds (t : Tree) : Option NodeId → Unfolding → Prop where
  | absent : Unfolds t none .absent
  | node {id : NodeId} {n : Node} {left right : Unfolding} (hget : t.get? id = some n)
      (hleft : Unfolds t n.left left) (hright : Unfolds t n.right right) :
      Unfolds t (some id) (.node id n.kind left right)

namespace Unfolds

variable {t : Tree}

theorem shows {link : Option NodeId} {u : Unfolding} (hu : t.Unfolds link u) :
  u.Shows u.shape
  := by
  induction hu with
  | absent => apply Unfolding.Shows.absent
  | node hget hleft hright ihl ihr => apply Unfolding.Shows.node _ ihl ihr

/-- A link shows at most one unfolding. -/
theorem unique {link : Option NodeId} {u v : Unfolding} (hu : t.Unfolds link u)
    (hv : t.Unfolds link v) :
  u = v
  := by
  induction hu generalizing v with
  | absent =>
    cases hv
    rfl
  | node hget hleft hright ihl ihr =>
    cases hv with
    | node hget' hleft' hright' =>
      obtain rfl := Option.some.inj (hget.symm.trans hget')
      rw [ihl hleft', ihr hright']

/-- A position that occurs in an unfolding shows an unfolding that is no larger. -/
theorem of_mem_ids {link : Option NodeId} {u : Unfolding} (hu : t.Unfolds link u) {id : NodeId}
    (h : id ∈ u.ids) :
  ∃ v, t.Unfolds (some id) v ∧ v.size ≤ u.size
  := by
  induction hu with
  | absent => cases h
  | @node top n left right hget hleft hright ihl ihr =>
    simp only [Unfolding.ids, List.mem_cons, List.mem_append] at h
    simp only [Unfolding.size]
    rcases h with rfl | h | h
    · use .node id n.kind left right
      constructor
      · apply Unfolds.node hget hleft hright
      · apply Nat.le_refl
    · obtain ⟨v, hv, hle⟩ := ihl h
      use v, hv
      omega
    · obtain ⟨v, hv, hle⟩ := ihr h
      use v, hv
      omega

/-- The topmost node of an unfolding does not occur below itself. -/
theorem top_not_mem {id : NodeId} {kind : NodeKind} {left right : Unfolding}
    (h : t.Unfolds (some id) (.node id kind left right)) :
  id ∉ left.ids ∧ id ∉ right.ids
  := by
  cases h with
  | @node _ n _ _ hget hleft hright =>
    -- Below itself the node would unfold to the same again, which is larger than either child.
    have hsize : ∀ v, t.Unfolds (some id) v → v.size = left.size + right.size + 1 := by
      intro v hv
      rw [hv.unique (.node hget hleft hright)]
      rfl
    constructor
    · intro hmem
      obtain ⟨v, hv, hle⟩ := hleft.of_mem_ids hmem
      rw [hsize v hv] at hle
      omega
    · intro hmem
      obtain ⟨v, hv, hle⟩ := hright.of_mem_ids hmem
      rw [hsize v hv] at hle
      omega

theorem lt_size_of_mem_ids {link : Option NodeId} {u : Unfolding} (hu : t.Unfolds link u)
    {id : NodeId} (h : id ∈ u.ids) :
  id < t.size
  := by
  obtain ⟨v, hv, -⟩ := hu.of_mem_ids h
  cases hv with
  | node hget hleft hright => apply lt_size_of_get? hget

theorem longestPath_nodup {link : Option NodeId} {u : Unfolding} (hu : t.Unfolds link u) :
  u.longestPath.Nodup
  := by
  induction hu with
  | absent => apply List.nodup_nil
  | @node id n left right hget hleft hright ihl ihr =>
    obtain ⟨hl, hr⟩ := (Unfolds.node hget hleft hright).top_not_mem
    simp only [Unfolding.longestPath]
    split
    · apply List.nodup_cons.mpr
      constructor
      · apply mt (fun h => right.longestPath_subset_ids h) hr
      · apply ihr
    · apply List.nodup_cons.mpr
      constructor
      · apply mt (fun h => left.longestPath_subset_ids h) hl
      · apply ihl

/-- No path of a finite unfolding is longer than the arena. -/
theorem longestPath_length_le {link : Option NodeId} {u : Unfolding} (hu : t.Unfolds link u) :
  u.longestPath.length ≤ t.size
  := by
  have hsub : u.longestPath ⊆ List.range t.size := by
    intro id hid
    apply List.mem_range.mpr
    apply hu.lt_size_of_mem_ids (u.longestPath_subset_ids hid)
  have hle := (hu.longestPath_nodup.subperm hsub).length_le
  rwa [List.length_range] at hle

/-- Following links as deep as the unfolding goes shows all of it. -/
theorem unfoldTo_eq {link : Option NodeId} {u : Unfolding} (hu : t.Unfolds link u) {depth : Nat}
    (h : u.longestPath.length ≤ depth) :
  t.unfoldTo depth link = u
  := by
  induction hu generalizing depth with
  | absent => cases depth <;> rfl
  | @node id n left right hget hleft hright ihl ihr =>
    have hl := Unfolding.longestPath_left_le id n.kind left right
    have hr := Unfolding.longestPath_right_le id n.kind left right
    obtain ⟨depth, rfl⟩ : ∃ d, depth = d + 1 := ⟨depth - 1, by omega⟩
    simp only [unfoldTo, hget]
    rw [ihl (by omega), ihr (by omega)]

/-- A finite unfolding without a link that leads outside the arena is the one computed. -/
theorem unfoldFrom_eq {link : Option NodeId} {u : Unfolding} (hu : t.Unfolds link u) :
  t.unfoldFrom link = u
  := by
  apply hu.unfoldTo_eq hu.longestPath_length_le

theorem unfolding_eq {u : Unfolding} (hu : t.Unfolds t.root u) :
  t.unfolding = u
  := hu.unfoldFrom_eq

/-- Unfoldings depend only on the kinds and children of the nodes. -/
theorem mono {link : Option NodeId} {u : Unfolding} (hu : t.Unfolds link u) {t' : Tree}
    (h : t.Keeps t') :
  t'.Unfolds link u
  := by
  induction hu with
  | absent => apply Unfolds.absent
  | @node id n left right hget hleft hright ihl ihr =>
    obtain ⟨n', hget', hkind, hl, hr⟩ := h id n hget
    rw [← hl] at ihl
    rw [← hr] at ihr
    rw [← hkind]
    apply Unfolds.node hget' ihl ihr

end Unfolds

/-- What is followed to its ends is a finite unfolding. -/
theorem unfolds_of_shows {t : Tree} {depth : Nat} {link : Option NodeId} {s : Shape}
    (h : (t.unfoldTo depth link).Shows s) :
  t.Unfolds link (t.unfoldTo depth link)
  := by
  induction depth generalizing link s with
  | zero =>
    cases link with
    | none => exact .absent
    | some id =>
      simp only [unfoldTo] at h
      split at h <;> cases h
  | succ depth ih =>
    cases link with
    | none => exact .absent
    | some id =>
      cases hget : t.get? id with
      | none =>
        simp only [unfoldTo, hget] at h
        cases h
      | some n =>
        simp only [unfoldTo, hget] at h ⊢
        cases h with
        | node _ hleft hright => exact .node hget (ih hleft) (ih hright)

/-! ### New nodes -/

theorem Keeps.refl (t : Tree) :
  t.Keeps t
  := fun _ n hget => ⟨n, hget, rfl, rfl, rfl⟩

/-- The nodes stay when only the tables and the root change. -/
theorem Keeps.of_nodes_eq {t t' : Tree} (h : t'.nodes = t.nodes) :
  t.Keeps t'
  := by
  intro id n hget
  use n
  rw [get?, h]
  use hget

theorem Keeps.trans {t t' t'' : Tree} (h : t.Keeps t') (h' : t'.Keeps t'') :
  t.Keeps t''
  := by
  intro id n hget
  obtain ⟨n', hget', hkind, hleft, hright⟩ := h id n hget
  obtain ⟨n'', hget'', hkind', hleft', hright'⟩ := h' id n' hget'
  use n'', hget''
  rw [hkind', hleft', hright']
  use hkind, hleft

theorem get?_size (t : Tree) :
  t.get? t.size = none
  := Array.getElem?_eq_none (Nat.le_refl _)

section NewNodes

variable (t : Tree) (kind : NodeKind) (left right : Option NodeId)

/-- Adoption changes one node only, and of that only the parent. -/
theorem get?_adopt (parent child id : NodeId) :
  (t.adopt parent child).get? id
    = (t.get? id).map fun n => if id = child then { n with parent := some parent } else n
  := by
  cases hchild : t.get? child with
  | none =>
    rw [adopt, hchild]
    by_cases hid : id = child
    · rw [hid, hchild, Option.map_none]
    · simp only [hid, if_false, Option.map_id']
  | some c =>
    have hlt : child < t.nodes.size := lt_size_of_get? hchild
    simp only [adopt, hchild]
    by_cases hid : id = child
    · subst hid
      rw [hchild]
      simp [get?, hlt]
    · simp only [hid, if_false, Option.map_id', get?]
      apply Array.getElem?_setIfInBounds_ne (Ne.symm hid)

theorem get?_adoptAll (parent : NodeId) (children : List NodeId) (id : NodeId) :
  (children.foldl (fun t child => t.adopt parent child) t).get? id
    = (t.get? id).map fun n => if id ∈ children then { n with parent := some parent } else n
  := by
  induction children generalizing t with
  | nil => simp
  | cons child children ih =>
    rw [List.foldl_cons, ih, get?_adopt, Option.map_map]
    congr 1
    funext n
    by_cases hid : id = child
    · simp [hid]
    · simp [hid]

/-- The new node has the given kind and children, and the nodes that were there change only in that
the children have a new parent. -/
theorem get?_node (id : NodeId) :
  (t.node kind left right).2.get? id
    = (if id = t.size then some { kind, left, right } else t.get? id).map fun n =>
        if id ∈ left.toList ++ right.toList then { n with parent := some t.size } else n
  := by
  simp only [node]
  rw [get?_adoptAll]
  congr 1
  apply Array.getElem?_push

@[simp]
theorem vars_adopt (parent child : NodeId) :
  (t.adopt parent child).vars = t.vars
  := by
  simp only [adopt]
  split <;> rfl

@[simp]
theorem funcs_adopt (parent child : NodeId) :
  (t.adopt parent child).funcs = t.funcs
  := by
  simp only [adopt]
  split <;> rfl

/-- A new node changes no table. -/
theorem tables_node :
  (t.node kind left right).2.vars = t.vars ∧ (t.node kind left right).2.funcs = t.funcs
  := by
  cases left <;> cases right <;> simp [node]

theorem live_adoptAll (parent : NodeId) (children : List NodeId) :
  (children.foldl (fun t child => t.adopt parent child) t).live = t.live
    ∧ (children.foldl (fun t child => t.adopt parent child) t).size = t.size
  := by
  induction children generalizing t with
  | nil => exact ⟨rfl, rfl⟩
  | cons child children ih =>
    obtain ⟨hlive, hsize⟩ := ih (t.adopt parent child)
    rw [List.foldl_cons, hlive, hsize]
    simp only [adopt]
    split
    · simp [size]
    · exact ⟨rfl, rfl⟩

/-- A new node makes the arena larger by one. -/
@[simp]
theorem size_node :
  (t.node kind left right).2.size = t.size + 1
  := by
  simp only [node, live_adoptAll]
  simp [size]

/-- A new node is counted. -/
@[simp]
theorem live_node :
  (t.node kind left right).2.live = t.live + 1
  := by
  simp only [node, live_adoptAll]

/-- The nodes that were there keep their kinds and children. -/
theorem keeps_node :
  t.Keeps (t.node kind left right).2
  := by
  intro id n hget
  have hne : id ≠ t.size := Nat.ne_of_lt (lt_size_of_get? hget)
  rw [get?_node, if_neg hne, hget, Option.map_some]
  refine ⟨_, rfl, ?_⟩
  split <;> simp

/-- The new node has the given kind and children. -/
theorem get?_node_size :
  ∃ n', (t.node kind left right).2.get? t.size = some n' ∧ n'.kind = kind ∧ n'.left = left
    ∧ n'.right = right
  := by
  rw [get?_node, if_pos rfl, Option.map_some]
  refine ⟨_, rfl, ?_⟩
  split <;> simp

variable {left right}

/-- A child that was there before has the new node for its parent. -/
theorem parent?_node_of_mem {id : NodeId} (hlt : id < t.size)
    (h : id ∈ left.toList ++ right.toList) :
  (t.node kind left right).2.parent? id = some t.size
  := by
  obtain ⟨n, hget⟩ : ∃ n, t.get? id = some n := ⟨_, Array.getElem?_eq_getElem hlt⟩
  rw [parent?, get?_node, if_neg (Nat.ne_of_lt hlt), hget, Option.map_some, if_pos h,
    Option.bind_some]

/-- What is no child keeps its parent. -/
theorem parent?_node_of_not_mem {id : NodeId} (h : id ∉ left.toList ++ right.toList) :
  (t.node kind left right).2.parent? id = t.parent? id
  := by
  rw [parent?, parent?, get?_node]
  simp only [h, if_false, Option.map_id']
  by_cases hid : id = t.size
  · rw [if_pos hid, hid, get?_size]
    rfl
  · rw [if_neg hid]

/-- A new node shows what its children show. -/
theorem Unfolds.newNode {t : Tree} {left right : Option NodeId} {u v : Unfolding}
    (hu : t.Unfolds left u) (hv : t.Unfolds right v) :
  (t.node kind left right).2.Unfolds (some t.size) (.node t.size kind u v)
  := by
  have hkeeps := t.keeps_node kind left right
  obtain ⟨n, hget, rfl, rfl, rfl⟩ := t.get?_node_size kind left right
  apply Unfolds.node hget (hu.mono hkeeps) (hv.mono hkeeps)

end NewNodes

/-! ### Forests -/

/-- All nodes of the arena are counted, and every child stands before the node that holds it and
names it as its parent. -/
structure Adopts (t : Tree) : Prop where
  live : t.live = t.size
  child_lt : ∀ id n, t.get? id = some n → ∀ child ∈ n.children, child < id
  parent : ∀ id n, t.get? id = some n → ∀ child ∈ n.children, t.parent? child = some id

/-- The arena is the disjoint union of the given trees, and what is on top of one has no parent. -/
structure Parts (t : Tree) (parts : Multiset (Option NodeId × Unfolding)) : Prop where
  adopts : t.Adopts
  unfolds : ∀ part ∈ parts, t.Unfolds part.1 part.2
  free : ∀ part ∈ parts, part.1.bind t.parent? = none
  ids : parts.bind (fun part => (part.2.ids : Multiset NodeId)) = Multiset.range t.size

/-- The arena is the disjoint union of trees with the given links and shapes. -/
def Holds (t : Tree) (forest : Multiset (Option NodeId × Shape)) : Prop :=
  ∃ parts : Multiset (Option NodeId × Unfolding),
    t.Parts parts ∧ parts.map (fun part => (part.1, part.2.shape)) = forest

theorem Adopts.of_nodes_eq {t t' : Tree} (h : t.Adopts) (hnodes : t'.nodes = t.nodes)
    (hlive : t'.live = t.live) :
  t'.Adopts
  := by
  constructor
  · rw [hlive, h.live, size, size, hnodes]
  · simpa only [get?, hnodes] using h.child_lt
  · simpa only [parent?, get?, hnodes] using h.parent

/-- The new node comes after its children, and nothing else holds them. -/
theorem children_node {t : Tree} {kind : NodeKind} {left right : Option NodeId} {id : NodeId}
    {n : Node} (h : (t.node kind left right).2.get? id = some n) :
  id = t.size ∧ n.children = left.toList ++ right.toList
    ∨ ∃ m, t.get? id = some m ∧ n.children = m.children
  := by
  rw [get?_node] at h
  obtain ⟨m, hget, rfl⟩ := Option.map_eq_some_iff.mp h
  split at hget
  · obtain rfl := Option.some.inj hget
    refine .inl ⟨‹_›, ?_⟩
    split <;> rfl
  · refine .inr ⟨m, hget, ?_⟩
    split <;> rfl

/-- A new node may adopt nodes without a parent. -/
theorem Adopts.node {t : Tree} {left right : Option NodeId} (kind : NodeKind) (h : t.Adopts)
    (hchildren : ∀ id ∈ left.toList ++ right.toList, id < t.size ∧ t.parent? id = none) :
  (t.node kind left right).2.Adopts
  := by
  constructor
  · rw [live_node, size_node, h.live]
  · intro id n hget child hchild
    rcases children_node hget with ⟨rfl, heq⟩ | ⟨m, hm, heq⟩
    · apply (hchildren child (heq ▸ hchild)).1
    · apply h.child_lt id m hm child (heq ▸ hchild)
  · intro id n hget child hchild
    rcases children_node hget with ⟨rfl, heq⟩ | ⟨m, hm, heq⟩
    · rw [heq] at hchild
      apply parent?_node_of_mem _ _ (hchildren child hchild).1 hchild
    · have hparent := h.parent id m hm child (heq ▸ hchild)
      rw [parent?_node_of_not_mem, hparent]
      intro hmem
      rw [(hchildren child hmem).2] at hparent
      cases hparent

namespace Parts

variable {t : Tree} {left right : Option NodeId} {u v : Unfolding}
  {parts : Multiset (Option NodeId × Unfolding)}

/-- What is on top of a tree stands in the arena, is part of its tree, and has no parent. -/
theorem top (h : t.Parts parts) {id : NodeId} (hpart : (some id, u) ∈ parts) :
  id < t.size ∧ id ∈ u.ids ∧ t.parent? id = none
  := by
  have hunfolds := h.unfolds _ hpart
  have hmem : id ∈ u.ids := by
    cases hunfolds with
    | node hget hleft hright => apply List.mem_cons_self
  exact ⟨hunfolds.lt_size_of_mem_ids hmem, hmem, h.free _ hpart⟩

section Joined

variable (h : t.Parts ((left, u) ::ₘ (right, v) ::ₘ parts))

include h

theorem top_of_mem {id : NodeId} (hid : id ∈ left.toList ++ right.toList) :
  id < t.size ∧ id ∈ u.ids ++ v.ids ∧ t.parent? id = none
  := by
  rcases List.mem_append.mp hid with hid | hid
  · obtain rfl := Option.mem_toList.mp hid
    obtain ⟨hlt, hmem, hparent⟩ := h.top (Multiset.mem_cons_self _ _)
    exact ⟨hlt, List.mem_append_left _ hmem, hparent⟩
  · obtain rfl := Option.mem_toList.mp hid
    obtain ⟨hlt, hmem, hparent⟩ := h.top (Multiset.mem_cons_of_mem (Multiset.mem_cons_self _ _))
    exact ⟨hlt, List.mem_append_right _ hmem, hparent⟩

/-- The trees have no node in common, so what is on top of another tree is not joined. -/
theorem not_mem_of_mem {id : NodeId} {w : Unfolding} (hpart : (some id, w) ∈ parts) :
  id ∉ left.toList ++ right.toList
  := by
  intro hid
  have hnodup := Multiset.nodup_range t.size
  rw [← h.ids, Multiset.cons_bind, Multiset.cons_bind, ← add_assoc, Multiset.nodup_add] at hnodup
  have hjoined : id ∈ (u.ids : Multiset NodeId) + (v.ids : Multiset NodeId) :=
    (h.top_of_mem hid).2.1
  have hother : id ∈ parts.bind fun part => (part.2.ids : Multiset NodeId) :=
    Multiset.mem_bind.mpr ⟨_, hpart,
      (h.top (Multiset.mem_cons_of_mem (Multiset.mem_cons_of_mem hpart))).2.1⟩
  apply Multiset.disjoint_left.mp hnodup.2.2 hjoined hother

/-- A new node joins two trees. -/
theorem node (kind : NodeKind) :
  (t.node kind left right).2.Parts ((some t.size, .node t.size kind u v) ::ₘ parts)
  := by
  have hkeeps := t.keeps_node kind left right
  constructor
  · apply h.adopts.node kind
    intro id hid
    obtain ⟨hlt, -, hparent⟩ := h.top_of_mem hid
    exact ⟨hlt, hparent⟩
  · intro part hpart
    rcases Multiset.mem_cons.mp hpart with rfl | hpart
    · apply Unfolds.newNode
      · apply h.unfolds (left, u) (Multiset.mem_cons_self _ _)
      · apply h.unfolds (right, v) (Multiset.mem_cons_of_mem (Multiset.mem_cons_self _ _))
    · apply (h.unfolds part _).mono hkeeps
      apply Multiset.mem_cons_of_mem (Multiset.mem_cons_of_mem hpart)
  · rintro ⟨link, w⟩ hpart
    cases link with
    | none => rfl
    | some id =>
      rcases Multiset.mem_cons.mp hpart with heq | hpart
      · obtain rfl := Option.some.inj (Prod.mk.inj heq).1
        rw [Option.bind_some, parent?_node_of_not_mem, parent?, get?_size, Option.bind_none]
        intro hid
        apply Nat.lt_irrefl _ (h.top_of_mem hid).1
      · rw [Option.bind_some, parent?_node_of_not_mem _ _ (h.not_mem_of_mem hpart)]
        apply h.free _ (Multiset.mem_cons_of_mem (Multiset.mem_cons_of_mem hpart))
  · rw [size_node, Multiset.range_succ, ← h.ids]
    simp only [Multiset.cons_bind, Unfolding.ids, ← Multiset.cons_coe, ← Multiset.coe_add]
    rw [Multiset.cons_add, add_assoc]

end Joined

end Parts

namespace Holds

variable {t : Tree} {forest : Multiset (Option NodeId × Shape)}

/-- An arena without nodes holds no trees. -/
theorem empty (hsize : t.size = 0) (hlive : t.live = 0) :
  t.Holds 0
  := by
  use 0
  constructor
  · have hget : ∀ id, t.get? id = none := by
      intro id
      apply Array.getElem?_eq_none
      rw [← size, hsize]
      apply Nat.zero_le
    constructor
    · constructor
      · rw [hlive, hsize]
      · simp [hget]
      · simp [hget]
    · simp
    · simp
    · simp [hsize]
  · rfl

/-- A forest may have any number of absent trees. -/
theorem absent (h : t.Holds forest) :
  t.Holds ((none, .absent) ::ₘ forest)
  := by
  obtain ⟨parts, hparts, rfl⟩ := h
  use (none, .absent) ::ₘ parts
  constructor
  · constructor
    · apply hparts.adopts
    · exact Multiset.forall_mem_cons.mpr ⟨.absent, hparts.unfolds⟩
    · exact Multiset.forall_mem_cons.mpr ⟨rfl, hparts.free⟩
    · simp [hparts.ids, Unfolding.ids]
  · rw [Multiset.map_cons, Unfolding.shape]

/-- The trees of a forest stay when only the tables and the root change. -/
theorem of_nodes_eq {t' : Tree} (h : t.Holds forest) (hnodes : t'.nodes = t.nodes)
    (hlive : t'.live = t.live) :
  t'.Holds forest
  := by
  obtain ⟨parts, hparts, hforest⟩ := h
  use parts
  constructor
  · constructor
    · apply hparts.adopts.of_nodes_eq hnodes hlive
    · intro part hpart
      apply (hparts.unfolds part hpart).mono (.of_nodes_eq hnodes)
    · have hparent : t'.parent? = t.parent? := by
        funext id
        rw [parent?, parent?, get?, get?, hnodes]
      simpa only [hparent] using hparts.free
    · simpa only [size, hnodes] using hparts.ids
  · apply hforest

/-- A new node joins two trees of the forest. -/
theorem node {left right : Option NodeId} {l r : Shape} (kind : NodeKind)
    (h : t.Holds ((left, l) ::ₘ (right, r) ::ₘ forest)) :
  (t.node kind left right).2.Holds ((some t.size, .node kind l r) ::ₘ forest)
  := by
  obtain ⟨parts, hparts, hforest⟩ := h
  obtain ⟨⟨left, u⟩, parts, rfl, heq, hrest⟩ := Multiset.exists_of_map_eq_cons hforest
  obtain ⟨⟨right, v⟩, others, rfl, heq', hothers⟩ := Multiset.exists_of_map_eq_cons hrest
  obtain ⟨rfl, rfl⟩ := Prod.mk.inj heq
  obtain ⟨rfl, rfl⟩ := Prod.mk.inj heq'
  use (some t.size, .node t.size kind u v) ::ₘ others, hparts.node kind
  rw [Multiset.map_cons, hothers, Unfolding.shape]

/-- A new chain joins the trees that are its items. -/
theorem chain (items : List (NodeId × Shape))
    (h : t.Holds (Multiset.ofList (items.map fun item => (some item.1, item.2)) + forest)) :
  (t.chain (items.map Prod.fst)).2.Holds
    (((t.chain (items.map Prod.fst)).1, .chain (items.map Prod.snd)) ::ₘ forest)
  := by
  induction items generalizing forest with
  | nil =>
    rw [List.map_nil, Multiset.coe_nil, zero_add] at h
    apply h.absent
  | cons item items ih =>
    rw [List.map_cons, ← Multiset.cons_coe, Multiset.cons_add, ← Multiset.add_cons] at h
    have hrest := ih h
    rw [Multiset.cons_swap] at hrest
    apply hrest.node

/-- A forest of one tree is the whole arena. -/
theorem single {link : Option NodeId} {s : Shape} (h : t.Holds {(link, s)}) :
  ∃ u, t.Parts {(link, u)} ∧ u.shape = s
  := by
  obtain ⟨parts, hparts, hforest⟩ := h
  obtain ⟨⟨_, u⟩, rfl, heq⟩ := Multiset.map_eq_singleton.mp hforest
  obtain ⟨rfl, rfl⟩ := Prod.mk.inj heq
  use u

end Holds

namespace Parts

variable {t : Tree} {link : Option NodeId} {u : Unfolding}

theorem unfolds_single (h : t.Parts {(link, u)}) :
  t.Unfolds link u
  := h.unfolds _ (Multiset.mem_singleton_self _)

/-- A tree that is the whole arena has each node once. -/
theorem ids_perm (h : t.Parts {(link, u)}) :
  u.ids.Perm (List.range t.size)
  := by
  have hids := h.ids
  rw [Multiset.singleton_bind] at hids
  apply Multiset.coe_eq_coe.mp hids

theorem nodup_ids (h : t.Parts {(link, u)}) :
  u.ids.Nodup
  := h.ids_perm.nodup_iff.mpr List.nodup_range

theorem length_ids (h : t.Parts {(link, u)}) :
  u.ids.length = t.live
  := by
  rw [h.ids_perm.length_eq, List.length_range, h.adopts.live]

end Parts

end Tree

end StackCompiler
