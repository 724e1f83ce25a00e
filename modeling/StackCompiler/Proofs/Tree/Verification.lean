import StackCompiler.Proofs.Tree.Unfolds
import StackCompiler.Tree.Verify

/-!
# Verification of a tree by its shape

If the unfolding of a tree is finite and shows no node twice, then the walk from the root reaches
the nodes in the order of the unfolding.  If they are as many as were made, what verification finds
is a function of the shape of the tree and of its symbol tables.
-/

namespace StackCompiler

namespace Tree

variable {t : Tree}

/-! ### The walk -/

/-- The visit that reaches a position for the first time, if the position is in the arena. -/
def firstVisit? (t : Tree) (id : NodeId) : Option Visit :=
  (t.get? id).map (.reached id)

/-- The table of visited positions after the given ones are marked. -/
def markAll (visited : Array Bool) (ids : List NodeId) : Array Bool :=
  ids.foldl (fun visited id => visited.setIfInBounds id true) visited

/-- Marking nodes does not change the marks of others. -/
theorem markAll_getElem? {visited : Array Bool} {ids : List NodeId} {id : NodeId} (h : id ∉ ids) :
  (markAll visited ids)[id]? = visited[id]?
  := by
  induction ids generalizing visited with
  | nil => rfl
  | cons first ids ih =>
    obtain ⟨hne, hids⟩ := not_or.mp (mt List.mem_cons.mpr h)
    simp only [markAll, List.foldl_cons]
    apply Eq.trans (ih hids)
    apply Array.getElem?_setIfInBounds_ne
    apply Ne.symm hne

/-- A walk that enters a tree of new nodes reaches each of them once before it goes on. -/
theorem visitsFrom_append {link : Option NodeId} {u : Unfolding} (hu : t.Unfolds link u)
    (visited : Array Bool) (stack : List NodeId) (hnew : ∀ id ∈ u.ids, visited[id]? = some false)
    (hnodup : u.ids.Nodup) :
  t.visitsFrom visited (link.toList ++ stack)
    = u.ids.filterMap t.firstVisit? ++ t.visitsFrom (markAll visited u.ids) stack
  := by
  -- The right child is entered with the nodes of the left one in the table, so the table varies.
  induction hu generalizing visited stack with
  | absent => rfl
  | @node id n left right hget hleft hright ihl ihr =>
    simp only [Unfolding.ids, List.nodup_cons, List.mem_append, not_or, List.nodup_append] at hnodup
    obtain ⟨⟨hidl, hidr⟩, hnodupl, hnodupr, hdisjoint⟩ := hnodup
    simp only [Unfolding.ids, List.mem_cons, List.mem_append, forall_eq_or_imp] at hnew
    obtain ⟨hid, hnew⟩ := hnew
    have hvisit : t.firstVisit? id = some (.reached id n) := by
      simp only [firstVisit?, hget, Option.map_some]
    rw [Option.toList_some, List.singleton_append, visitsFrom]
    simp only [hget, hid, dite_true, Unfolding.ids, List.filterMap_cons, hvisit, List.cons_append]
    congr 1
    have hnewl : ∀ other ∈ left.ids, (visited.setIfInBounds id true)[other]? = some false := by
      intro other hother
      have hne : id ≠ other := fun h => hidl (h ▸ hother)
      rw [Array.getElem?_setIfInBounds_ne hne]
      apply hnew other (.inl hother)
    have hnewr : ∀ other ∈ right.ids,
        (markAll (visited.setIfInBounds id true) left.ids)[other]? = some false := by
      intro other hother
      have hne : id ≠ other := fun h => hidr (h ▸ hother)
      have hnotl : other ∉ left.ids := fun h => hdisjoint other h other hother rfl
      rw [markAll_getElem? hnotl, Array.getElem?_setIfInBounds_ne hne]
      apply hnew other (.inr hother)
    rw [ihl _ _ hnewl hnodupl, ihr _ _ hnewr hnodupr, List.filterMap_append, List.append_assoc]
    simp only [markAll, List.foldl_cons, List.foldl_append]

/-- The walk reaches the nodes of an unfolding in which no node occurs twice. -/
theorem visits_eq {u : Unfolding} (hu : t.Unfolds t.root u) (hnodup : u.ids.Nodup) :
  t.visits = u.ids.filterMap t.firstVisit?
  := by
  have hnew : ∀ id ∈ u.ids, (Array.replicate t.size false)[id]? = some false := by
    intro id hid
    have hlt := hu.lt_size_of_mem_ids hid
    simp [hlt]
  have hwalk := visitsFrom_append hu (Array.replicate t.size false) [] hnew hnodup
  rw [List.append_nil] at hwalk
  rw [visits, hwalk, visitsFrom, List.append_nil]

/-- The nodes that are reached are those of the unfolding, in its order. -/
theorem reached_eq {u : Unfolding} (hu : t.Unfolds t.root u) (hnodup : u.ids.Nodup) :
  t.reached.map (·.2) = u.ids.filterMap t.get?
  := by
  rw [reached, visits_eq hu hnodup, List.filterMap_filterMap, List.map_filterMap]
  congr 1
  funext id
  cases hget : t.get? id with
  | none => simp [firstVisit?, hget]
  | some n => simp [firstVisit?, hget]

/-- Nothing is wrong with the links if the unfolding shows every node that was made once. -/
theorem linkFindings_eq_nil {u : Unfolding} (hu : t.Unfolds t.root u) (hnodup : u.ids.Nodup)
    (hlive : u.ids.length = t.live) :
  t.linkFindings t.visits = []
  := by
  have hvisit : ∀ id ∈ u.ids, ∃ n, t.firstVisit? id = some (.reached id n) := by
    intro id hid
    have hlt := hu.lt_size_of_mem_ids hid
    use t.nodes[id]
    simp only [firstVisit?, get?, Array.getElem?_eq_getElem hlt, Option.map_some]
  have hlength : (u.ids.filterMap t.firstVisit?).length = t.live := by
    rw [List.length_filterMap_eq_countP, List.countP_eq_length.mpr, hlive]
    intro id hid
    obtain ⟨n, hn⟩ := hvisit id hid
    rw [hn, Option.isSome_some]
  rw [visits_eq hu hnodup, linkFindings]
  simp only [hlength, decide_true, Bool.and_true]
  rw [if_pos]
  apply List.all_eq_true.mpr
  intro visit hmem
  obtain ⟨id, hid, heq⟩ := List.mem_filterMap.mp hmem
  obtain ⟨n, hn⟩ := hvisit id hid
  obtain rfl := Option.some.inj (hn.symm.trans heq)
  rfl

end Tree

/-! ### Findings by shape -/

namespace Shape

/-- What a function finds at each node, a node before what hangs on it and left before right. -/
def collect {α : Type} (f : NodeKind → Shape → Shape → List α) : Shape → List α
  | absent => []
  | node kind left right => f kind left right ++ (left.collect f ++ right.collect f)

/-- Whether there is a node. -/
def isPresent (s : Shape) : Bool := s.kind?.isSome

/-- Whether the topmost node is a variable. -/
def isVariable (s : Shape) : Bool :=
  match s.kind? with
  | some (.variable _) => true
  | _ => false

/-- What is wrong with a node, given the shapes of its children. -/
def nodeFindings (vars funcs : SymbolTable) (kind : NodeKind) (left right : Shape) :
    List Finding :=
  match kind with
  | .hole => [.noType]
  | .separator => []
  | .binary op =>
    if left.isPresent && right.isPresent && (op != .assign || left.isVariable)
    then [] else [.operationWrongChildren]
  | .unary op =>
    if !left.isPresent && right.isPresent && (op != .input || right.isVariable)
    then [] else [.operationWrongChildren]
  | .control _ =>
    if left.isPresent && right.kind? == some .separator
    then [] else [.operationWrongChildren]
  | .number _ =>
    if !left.isPresent && !right.isPresent then [] else [.numberWrongChildren]
  | .variable index =>
    (if !left.isPresent && !right.isPresent then [] else [.variableWrongChildren])
      ++ (if vars.containsIndex index then [] else [.unresolvedIndex])
  | .function index =>
    (if funcs.containsIndex index then [] else [.unresolvedIndex])
      ++ (if !left.isPresent || left.kind? == some .separator
          then [] else [.operationWrongChildren])

/-- The function that a node calls and the number of arguments it gives. -/
def callAt (kind : NodeKind) (left right : Shape) : List (Nat × Nat) :=
  match kind, left with
  | .function index, absent => [(index, right.items.length)]
  | _, _ => []

/-- The function that a node defines and the number of parameters it takes. -/
def definitionAt (kind : NodeKind) (left _right : Shape) : List (Nat × Nat) :=
  match kind, left with
  | .function index, node .separator _ parameters => [(index, parameters.items.length)]
  | _, _ => []

/-- Everything that is wrong with a tree of the given shape. -/
def findings (vars funcs : SymbolTable) (s : Shape) : List Finding :=
  s.collect (nodeFindings vars funcs)
    ++ (s.collect callAt).flatMap (Tree.callFindings (s.collect definitionAt))

end Shape

namespace Tree

variable {t : Tree}

namespace Unfolds

/-- What is found at the nodes of an unfolding is found in its shape. -/
theorem flatMap_eq_collect {α : Type} {link : Option NodeId} {u : Unfolding}
    (hu : t.Unfolds link u) (g : Node → List α) (f : NodeKind → Shape → Shape → List α)
    (h : ∀ n l r, t.Unfolds n.left l → t.Unfolds n.right r → g n = f n.kind l.shape r.shape) :
  (u.ids.filterMap t.get?).flatMap g = u.shape.collect f
  := by
  induction hu with
  | absent => rfl
  | @node id n left right hget hleft hright ihl ihr =>
    simp only [Unfolding.ids, List.filterMap_cons, hget, List.flatMap_cons, List.filterMap_append,
      List.flatMap_append, ihl, ihr, Unfolding.shape, Shape.collect, h n left right hleft hright]

/-- There is a link if and only if something is present. -/
theorem isSome_link {link : Option NodeId} {u : Unfolding} (hu : t.Unfolds link u) :
  link.isSome = u.shape.isPresent
  := by
  cases hu with
  | absent => rfl
  | node hget hleft hright => rfl

/-- There is no link if and only if nothing is present. -/
theorem isNone_link {link : Option NodeId} {u : Unfolding} (hu : t.Unfolds link u) :
  link.isNone = !u.shape.isPresent
  := by
  rw [← hu.isSome_link, Option.not_isSome]

/-- The kind behind a link is that of the shape. -/
theorem kind?_link {link : Option NodeId} {u : Unfolding} (hu : t.Unfolds link u) :
  t.kind? link = u.shape.kind?
  := by
  cases hu with
  | absent => rfl
  | node hget hleft hright =>
    simp only [kind?, Option.bind_some, hget, Option.map_some, Unfolding.shape, Shape.kind?]

/-- A link leads to a variable if and only if the shape is one. -/
theorem leadsToVariable_link {link : Option NodeId} {u : Unfolding} (hu : t.Unfolds link u) :
  t.leadsToVariable link = u.shape.isVariable
  := by
  rewrite [leadsToVariable, hu.kind?_link]
  rfl

/-- The right spine of an unfolding is one of its paths. -/
theorem items_length_le {link : Option NodeId} {u : Unfolding} (hu : t.Unfolds link u) :
  u.shape.items.length ≤ t.size
  := by
  have hle : ∀ v : Unfolding, v.shape.items.length ≤ v.longestPath.length := by
    intro v
    induction v with
    | absent => apply Nat.le_refl
    | dangling id => apply Nat.le_refl
    | cut id => apply Nat.le_refl
    | node id kind left right ihl ihr =>
      apply Nat.le_trans _ (Unfolding.longestPath_right_le id kind left right)
      simp only [Unfolding.shape, Shape.items, List.length_cons]
      omega
  apply Nat.le_trans (hle u) hu.longestPath_length_le

/-- The length of a chain is the number of items that its unfolding shows. -/
theorem chainLength_eq {link : Option NodeId} {u : Unfolding} (hu : t.Unfolds link u) :
  t.chainLength link = u.shape.items.length
  := by
  have hitems : ∀ {link : Option NodeId} {u : Unfolding} (limit : Nat), t.Unfolds link u →
      u.shape.items.length ≤ limit → (t.chainItems link limit).length = u.shape.items.length := by
    intro link u limit hu
    induction hu generalizing limit with
    | absent =>
      intro _
      cases limit <;> rfl
    | node hget hleft hright ihl ihr =>
      intro hle
      cases limit with
      | zero => cases hle
      | succ limit =>
        simp only [Unfolding.shape, Shape.items, List.length_cons] at hle ⊢
        simp only [chainItems, Option.bind_some, hget, List.length_cons]
        rw [ihr limit (by omega)]
  apply hitems _ hu hu.items_length_le

end Unfolds

/-- What is found at a node is found at its shape. -/
theorem nodeFindings_eq (n : Node) (l r : Unfolding) (hl : t.Unfolds n.left l)
    (hr : t.Unfolds n.right r) :
  t.nodeFindings n = Shape.nodeFindings t.vars t.funcs n.kind l.shape r.shape
  := by
  obtain ⟨kind, left, right, parent⟩ := n
  cases kind <;> simp only [nodeFindings, Shape.nodeFindings, Node.isLeaf, hl.isSome_link,
    hr.isSome_link, hl.isNone_link, hr.isNone_link, hl.kind?_link, hr.kind?_link,
    hl.leadsToVariable_link, hr.leadsToVariable_link]

/-- The call at a node is the one at its shape. -/
theorem call?_eq (n : Node) (l r : Unfolding) (hl : t.Unfolds n.left l)
    (hr : t.Unfolds n.right r) :
  (t.call? n).toList = Shape.callAt n.kind l.shape r.shape
  := by
  obtain ⟨kind, left, right, parent⟩ := n
  cases kind with
  | function index =>
    cases hl with
    | absent => simp only [call?, hr.chainLength_eq, Shape.callAt, Unfolding.shape, Option.toList]
    | node hget hleft hright => rfl
  | _ => rfl

/-- The definition at a node is the one at its shape. -/
theorem definition?_eq (n : Node) (l r : Unfolding) (hl : t.Unfolds n.left l)
    (_ : t.Unfolds n.right r) :
  (t.definition? n).toList = Shape.definitionAt n.kind l.shape r.shape
  := by
  obtain ⟨kind, left, right, parent⟩ := n
  cases kind with
  | function index =>
    cases hl with
    | absent => rfl
    | @node id header _ _ hget hleft hright =>
      simp only [definition?, Option.bind_some, hget, hright.chainLength_eq, Unfolding.shape]
      cases hkind : header.kind <;> simp [Shape.definitionAt]
  | _ => rfl

/-- What verification finds in a tree whose unfolding shows every node that was made once depends on
the shape of the tree and on its symbol tables only. -/
theorem verify_eq_of_unfolds {u : Unfolding} (hu : t.Unfolds t.root u) (hnodup : u.ids.Nodup)
    (hlive : u.ids.length = t.live) (hpresent : u.shape.isPresent) :
  t.verify = .ofList (u.shape.findings t.vars t.funcs)
  := by
  have hroot : t.root.isNone = false := by
    rw [hu.isNone_link, hpresent, Bool.not_true]
  rw [verify, hroot, if_neg Bool.false_ne_true, linkFindings_eq_nil hu hnodup hlive]
  simp only [List.nil_append, reached_eq hu hnodup, Shape.findings,
    List.filterMap_eq_flatMap_toList t.call?, List.filterMap_eq_flatMap_toList t.definition?]
  rw [hu.flatMap_eq_collect _ _ nodeFindings_eq, hu.flatMap_eq_collect _ _ call?_eq,
    hu.flatMap_eq_collect _ _ definition?_eq]

/-- The findings of an arena that is one tree are those of its shape. -/
theorem verify_eq_of_holds {s : Shape} (h : t.Holds {(t.root, s)}) (hpresent : s.isPresent) :
  t.verify = .ofList (s.findings t.vars t.funcs)
  := by
  obtain ⟨u, hparts, rfl⟩ := h.single
  apply verify_eq_of_unfolds hparts.unfolds_single hparts.nodup_ids hparts.length_ids hpresent

end Tree

end StackCompiler
