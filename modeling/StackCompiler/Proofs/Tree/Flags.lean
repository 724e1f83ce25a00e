import StackCompiler.Proofs.Tree.Links

/-!
# Findings of verification

Which findings verification makes, told by the nodes that can be reached and without the walk: a
node whose children do not fit its kind, a variable or function without a name, a call without a
definition, and a call with another number of arguments than the definition has parameters.

Of several definitions of a function the first one counts, in depth-first order.  That order is told
by a relation that leaves out what was seen before (`DepthFirst`), and the walk with its stack and
its marks has the same order for every tree, whatever its links are (`depthFirst_visits`).
-/

namespace StackCompiler

/-- The finding about a node of the kind whose children do not fit. -/
def NodeKind.childFinding? : NodeKind → Option Finding
  | .hole => some .noType
  | .separator => none
  | .binary _ => some .operationWrongChildren
  | .unary _ => some .operationWrongChildren
  | .control _ => some .operationWrongChildren
  | .number _ => some .numberWrongChildren
  | .variable _ => some .variableWrongChildren
  | .function _ => some .operationWrongChildren

/-- The node calls the function of the index. -/
def Node.Calls (n : Node) (index : Nat) : Prop :=
  n.kind = .function index ∧ n.left = none

namespace Tree

variable {t : Tree}

/-! ### Depth-first order -/

/-- The nodes that are met from the links, each one before what hangs on it, and that before what
stands beside it, without the positions that were seen before. -/
inductive DepthFirst (t : Tree) : (seen links order : List NodeId) → Prop where
  | nil (seen : List NodeId) : DepthFirst t seen [] []
  | dangling {seen rest order : List NodeId} {id : NodeId} (hget : t.get? id = none)
      (hrest : DepthFirst t seen rest order) : DepthFirst t seen (id :: rest) order
  | again {seen rest order : List NodeId} {id : NodeId} (hseen : id ∈ seen)
      (hrest : DepthFirst t seen rest order) : DepthFirst t seen (id :: rest) order
  | node {seen rest below order : List NodeId} {id : NodeId} {n : Node}
      (hget : t.get? id = some n) (hnew : id ∉ seen)
      (hbelow : DepthFirst t (seen ++ [id]) n.children below)
      (hrest : DepthFirst t (seen ++ id :: below) rest order) :
      DepthFirst t seen (id :: rest) (id :: (below ++ order))

namespace DepthFirst

variable {seen links rest order other : List NodeId}

/-- There is one depth-first order. -/
theorem unique (h : t.DepthFirst seen links order) (h' : t.DepthFirst seen links other) :
  order = other
  := by
  induction h generalizing other with
  | nil seen =>
    cases h'
    rfl
  | dangling hget hrest ih =>
    cases h' with
    | dangling _ hrest' => apply ih hrest'
    | again _ hrest' => apply ih hrest'
    | node hget' => cases hget.symm.trans hget'
  | again hseen hrest ih =>
    cases h' with
    | dangling _ hrest' => apply ih hrest'
    | again _ hrest' => apply ih hrest'
    | node _ hnew => exact absurd hseen hnew
  | node hget hnew hbelow hrest ihb ihr =>
    cases h' with
    | dangling hget' => cases hget.symm.trans hget'
    | again hseen => exact absurd hseen hnew
    | node hget' _ hbelow' hrest' =>
      obtain rfl := Option.some.inj (hget.symm.trans hget')
      obtain rfl := ihb hbelow'
      rw [ihr hrest']

/-- What is met from the first links comes first, and counts as seen for the others. -/
theorem of_append (h : t.DepthFirst seen (links ++ rest) order) :
  ∃ below after, order = below ++ after ∧ t.DepthFirst seen links below
    ∧ t.DepthFirst (seen ++ below) rest after
  := by
  generalize hall : links ++ rest = all at h
  induction h generalizing links with
  | nil seen =>
    obtain ⟨rfl, rfl⟩ := List.append_eq_nil_iff.mp hall
    exact ⟨[], [], rfl, .nil seen, .nil _⟩
  | @dangling seen others order id hget hrest ih =>
    cases links with
    | nil =>
      obtain rfl : rest = id :: others := hall
      use [], order, rfl, .nil seen
      rw [List.append_nil]
      exact .dangling hget hrest
    | cons first links =>
      obtain ⟨rfl, hlinks⟩ := List.cons.inj hall
      obtain ⟨below, after, rfl, hbelow, hafter⟩ := ih hlinks
      exact ⟨below, after, rfl, .dangling hget hbelow, hafter⟩
  | @again seen others order id hseen hrest ih =>
    cases links with
    | nil =>
      obtain rfl : rest = id :: others := hall
      use [], order, rfl, .nil seen
      rw [List.append_nil]
      exact .again hseen hrest
    | cons first links =>
      obtain ⟨rfl, hlinks⟩ := List.cons.inj hall
      obtain ⟨below, after, rfl, hbelow, hafter⟩ := ih hlinks
      exact ⟨below, after, rfl, .again hseen hbelow, hafter⟩
  | @node seen others inner order id n hget hnew hinner hrest ihb ihr =>
    cases links with
    | nil =>
      obtain rfl : rest = id :: others := hall
      use [], id :: (inner ++ order), rfl, .nil seen
      rw [List.append_nil]
      exact .node hget hnew hinner hrest
    | cons first links =>
      obtain ⟨rfl, hlinks⟩ := List.cons.inj hall
      obtain ⟨below, after, rfl, hbelow, hafter⟩ := ihr hlinks
      use first :: (inner ++ below), after
      rw [List.append_assoc, List.cons_append] at hafter
      exact ⟨by simp, .node hget hnew hinner hbelow, hafter⟩

end DepthFirst

/-- The walk reaches the nodes in depth-first order, if what was seen before is what is marked. -/
theorem depthFirst_visitsFrom {visited : Array Bool} {stack seen : List NodeId}
    (hseen : ∀ id n, t.get? id = some n → visited[id]? = some (decide (id ∈ seen))) :
  t.DepthFirst seen stack (reachedIds (t.visitsFrom visited stack))
  := by
  fun_induction visitsFrom t visited stack generalizing seen with
  | case1 => exact .nil seen
  | case2 visited top rest hget ih => exact .dangling hget (ih hseen)
  | case3 visited top rest n hget hnew ih =>
    have hmarked : ∀ id n, t.get? id = some n →
        (visited.setIfInBounds top true)[id]? = some (decide (id ∈ seen ++ [top])) := by
      intro id n' hget'
      by_cases heq : top = id
      · subst heq
        obtain ⟨hlt, -⟩ := Array.getElem?_eq_some_iff.mp hnew
        simp [hlt]
      · rw [Array.getElem?_setIfInBounds_ne heq, hseen id n' hget']
        simp [Ne.symm heq]
    have hwalk := ih hmarked
    rw [← List.append_assoc] at hwalk ⊢
    -- the children of the node are on top of the stack, so what is below them comes first
    obtain ⟨below, after, horder, hbelow, hafter⟩ := hwalk.of_append
    rw [List.append_assoc, List.singleton_append] at hafter
    change t.DepthFirst seen (top :: rest) (top :: reachedIds _)
    rw [horder]
    apply DepthFirst.node hget _ hbelow hafter
    rw [hseen top n hget] at hnew
    simpa using hnew
  | case4 visited top rest n hget hold ih =>
    apply DepthFirst.again _ (ih hseen)
    rw [hseen top n hget] at hold
    simpa using hold

/-- The walk from the root reaches the nodes in depth-first order. -/
theorem depthFirst_visits :
  t.DepthFirst [] t.root.toList (reachedIds t.visits)
  := by
  apply depthFirst_visitsFrom
  intro id n hget
  have hlt := lt_size_of_get? hget
  simp [hlt]

/-! ### Nodes that can be reached -/

/-- A node of the arena that can be reached from the root, with its position. -/
def Reaches (t : Tree) (id : NodeId) (n : Node) : Prop :=
  t.Reachable id ∧ t.get? id = some n

/-- The nodes that are reached stand in the depth-first order of their positions. -/
theorem map_snd_reached :
  t.reached.map (·.2) = (reachedIds t.visits).filterMap t.get?
  := by
  rw [reached, visits]
  generalize Array.replicate t.size false = visited
  generalize t.root.toList = stack
  fun_induction visitsFrom t visited stack with
  | case1 => rfl
  | case2 visited top rest hget ih => exact ih
  | case3 visited top rest n hget hnew ih =>
    change n :: _ = List.filterMap t.get? (top :: reachedIds _)
    rw [List.filterMap_cons, hget, ← ih]
  | case4 visited top rest n hget hold ih => exact ih

/-- The walk reaches exactly the nodes that can be reached. -/
theorem mem_reachedNodes_iff {n : Node} :
  n ∈ t.reached.map (·.2) ↔ ∃ id, t.Reaches id n
  := by
  rw [map_snd_reached, List.mem_filterMap]
  apply exists_congr
  intro id
  rw [mem_reachedIds_iff, Reaches]
  constructor
  · rintro ⟨⟨hreach, -⟩, hget⟩
    exact ⟨hreach, hget⟩
  · rintro ⟨hreach, hget⟩
    exact ⟨⟨hreach, lt_size_of_get? hget⟩, hget⟩

/-! ### Rules for nodes -/

/-- The children of a node fit its kind. -/
def FitsChildren (t : Tree) (n : Node) : Prop :=
  match n.kind with
  | .hole => False
  | .separator => True
  | .binary op =>
    n.left ≠ none ∧ n.right ≠ none
      ∧ (op = .assign → ∃ index, t.kind? n.left = some (.variable index))
  | .unary op =>
    n.left = none ∧ n.right ≠ none
      ∧ (op = .input → ∃ index, t.kind? n.right = some (.variable index))
  | .control _ => n.left ≠ none ∧ t.kind? n.right = some .separator
  | .number _ => n.left = none ∧ n.right = none
  | .variable _ => n.left = none ∧ n.right = none
  | .function _ => n.left = none ∨ t.kind? n.left = some .separator

/-- The node is a variable or function whose index is outside its table. -/
def IsUnnamed (t : Tree) (n : Node) : Prop :=
  (∃ index, n.kind = .variable index ∧ t.vars.size ≤ index)
    ∨ ∃ index, n.kind = .function index ∧ t.funcs.size ≤ index

/-- A link leads to a variable if the node behind it is one. -/
theorem leadsToVariable_iff {link : Option NodeId} :
  t.leadsToVariable link ↔ ∃ index, t.kind? link = some (.variable index)
  := by
  unfold leadsToVariable
  split
  · rename_i index hkind
    simp [hkind]
  · rename_i hother
    simpa using hother

theorem mem_unless_iff {b : Bool} {P : Prop} (h : b = true ↔ P) {found finding : Finding} :
  finding ∈ (if b then [] else [found]) ↔ some found = some finding ∧ ¬ P
  := by
  rw [← h]
  split <;> simp_all [eq_comm]

/-- What is found at a node is that its children do not fit, or that it is unnamed. -/
theorem mem_nodeFindings_iff {n : Node} {finding : Finding} :
  finding ∈ t.nodeFindings n
    ↔ (n.kind.childFinding? = some finding ∧ ¬ t.FitsChildren n)
      ∨ (finding = .unresolvedIndex ∧ t.IsUnnamed n)
  := by
  obtain ⟨kind, left, right, parent⟩ := n
  have hleaf : (left.isNone && right.isNone) = true ↔ left = none ∧ right = none := by simp
  cases kind with
  | hole => simp [nodeFindings, NodeKind.childFinding?, FitsChildren, IsUnnamed, eq_comm]
  | separator => simp [nodeFindings, NodeKind.childFinding?, IsUnnamed]
  | binary op =>
    have hfits : (left.isSome && right.isSome && (op != .assign || t.leadsToVariable left)) = true
        ↔ left ≠ none ∧ right ≠ none
          ∧ (op = .assign → ∃ index, t.kind? left = some (.variable index)) := by
      simp [← leadsToVariable_iff, Option.isSome_iff_ne_none, and_assoc, imp_iff_not_or]
    rw [nodeFindings, mem_unless_iff hfits]
    simp [NodeKind.childFinding?, FitsChildren, IsUnnamed]
  | unary op =>
    have hfits : (left.isNone && right.isSome && (op != .input || t.leadsToVariable right)) = true
        ↔ left = none ∧ right ≠ none
          ∧ (op = .input → ∃ index, t.kind? right = some (.variable index)) := by
      simp [← leadsToVariable_iff, Option.isSome_iff_ne_none, and_assoc, imp_iff_not_or]
    rw [nodeFindings, mem_unless_iff hfits]
    simp [NodeKind.childFinding?, FitsChildren, IsUnnamed]
  | control op =>
    have hfits : (left.isSome && t.kind? right == some .separator) = true
        ↔ left ≠ none ∧ t.kind? right = some .separator := by
      simp [Option.isSome_iff_ne_none]
    rw [nodeFindings, mem_unless_iff hfits]
    simp [NodeKind.childFinding?, FitsChildren, IsUnnamed]
  | number value =>
    rw [nodeFindings, Node.isLeaf, mem_unless_iff hleaf]
    simp [NodeKind.childFinding?, FitsChildren, IsUnnamed]
  | «variable» index =>
    have hnamed : t.vars.containsIndex index = true ↔ index < t.vars.size := by
      simp [SymbolTable.containsIndex]
    rw [nodeFindings, Node.isLeaf, List.mem_append, mem_unless_iff hleaf, mem_unless_iff hnamed]
    simp [NodeKind.childFinding?, FitsChildren, IsUnnamed, eq_comm]
  | function index =>
    have hnamed : t.funcs.containsIndex index = true ↔ index < t.funcs.size := by
      simp [SymbolTable.containsIndex]
    have hfits : (left.isNone || t.kind? left == some .separator) = true
        ↔ left = none ∨ t.kind? left = some .separator := by
      simp
    rw [nodeFindings, List.mem_append, mem_unless_iff hfits, mem_unless_iff hnamed, or_comm]
    simp [NodeKind.childFinding?, FitsChildren, IsUnnamed, eq_comm]

/-! ### Calls and definitions -/

/-- The node at the position defines the function of the index, and the header holds its body and
its parameters. -/
def DefinesAt (t : Tree) (id : NodeId) (index : Nat) (header : Node) : Prop :=
  ∃ n link, t.get? id = some n ∧ n.kind = .function index ∧ n.left = some link
    ∧ t.get? link = some header ∧ header.kind = .separator

/-- The first of the positions that defines the function of the index. -/
def DefinesFirst (t : Tree) (order : List NodeId) (index : Nat) (header : Node) : Prop :=
  ∃ before id after, order = before ++ id :: after ∧ t.DefinesAt id index header
    ∧ ∀ other ∈ before, ∀ header', ¬ t.DefinesAt other index header'

/-- The node at the end of some right links. -/
def chainNode? (t : Tree) (head : Option NodeId) : Nat → Option Node
  | 0 => head.bind t.get?
  | steps + 1 => (head.bind t.get?).bind fun n => t.chainNode? n.right steps

/-- A chain is as long as it has nodes, but not longer than the arena. -/
theorem lt_chainLength_iff {head : Option NodeId} {steps : Nat} :
  steps < t.chainLength head ↔ steps < t.size ∧ t.chainNode? head steps ≠ none
  := by
  have hlimit : ∀ limit, steps < (t.chainItems head limit).length
      ↔ steps < limit ∧ t.chainNode? head steps ≠ none := by
    intro limit
    induction limit generalizing head steps with
    | zero => simp [chainItems]
    | succ limit ih =>
      rw [chainItems]
      cases hget : head.bind t.get? with
      | none => cases steps <;> simp [chainNode?, hget]
      | some n =>
        cases steps with
        | zero => simp [chainNode?, hget]
        | succ steps =>
          rw [List.length_cons, Nat.add_lt_add_iff_right, Nat.add_lt_add_iff_right, ih, chainNode?,
            hget, Option.bind_some]
  exact hlimit t.size

/-- The function that is defined at a position and the number of parameters it takes. -/
def definitionAt? (t : Tree) (id : NodeId) : Option (Nat × Nat) :=
  (t.get? id).bind t.definition?

/-- A definition is found at a node if and only if the node defines a function by its header. -/
theorem definitionAt?_eq_some_iff {id : NodeId} {index count : Nat} :
  t.definitionAt? id = some (index, count)
    ↔ ∃ header, t.DefinesAt id index header ∧ t.chainLength header.right = count
  := by
  constructor
  · intro h
    obtain ⟨n, hget, hn⟩ := Option.bind_eq_some_iff.mp h
    unfold definition? at hn
    split at hn
    · rename_i header hkind hheader
      obtain ⟨link, hlink, hheader⟩ := Option.bind_eq_some_iff.mp hheader
      split at hn
      · rename_i hseparator
        cases hn
        exact ⟨header, ⟨n, link, hget, hkind, hlink, hheader, hseparator⟩, rfl⟩
      · cases hn
    · cases hn
  · rintro ⟨header, ⟨n, link, hget, hkind, hlink, hheader, hseparator⟩, rfl⟩
    rw [definitionAt?, hget, Option.bind_some, definition?, hkind, hlink, Option.bind_some,
      hheader]
    exact if_pos hseparator

/-- A definition of a function is found at a node if and only if the node defines that function. -/
theorem any_definitionAt?_iff {id : NodeId} {index : Nat} :
  (t.definitionAt? id).any (·.1 == index) ↔ ∃ header, t.DefinesAt id index header
  := by
  rw [Option.any_eq_true]
  constructor
  · rintro ⟨⟨index', count⟩, hdefinition, hindex⟩
    obtain rfl : index' = index := eq_of_beq hindex
    obtain ⟨header, hheader, -⟩ := definitionAt?_eq_some_iff.mp hdefinition
    exact ⟨header, hheader⟩
  · rintro ⟨header, hheader⟩
    exact ⟨_, definitionAt?_eq_some_iff.mpr ⟨header, hheader, rfl⟩, beq_self_eq_true index⟩

/-- The definition that counts is the first one. -/
theorem find?_definitions_eq_some_iff {order : List NodeId} {index : Nat}
    {definition : Nat × Nat} :
  (order.filterMap t.definitionAt?).find? (·.1 == index) = some definition
    ↔ ∃ header, t.DefinesFirst order index header
      ∧ definition = (index, t.chainLength header.right)
  := by
  rw [List.find?_filterMap, Option.bind_eq_some_iff]
  simp only [List.find?_eq_some_iff_append, any_definitionAt?_iff, Bool.not_eq_true',
    ← Bool.not_eq_true]
  constructor
  · rintro ⟨id, ⟨⟨header, hheader⟩, before, after, horder, hbefore⟩, hdefinition⟩
    have hat := definitionAt?_eq_some_iff.mpr ⟨header, hheader, rfl⟩
    use header, ⟨before, id, after, horder, hheader, fun other hother =>
      not_exists.mp (hbefore other hother)⟩
    apply Option.some.inj (hdefinition.symm.trans hat)
  · rintro ⟨header, ⟨before, id, after, horder, hheader, hbefore⟩, rfl⟩
    use id, ⟨⟨header, hheader⟩, before, after, horder, fun other hother =>
      not_exists.mpr (hbefore other hother)⟩
    apply definitionAt?_eq_some_iff.mpr ⟨header, hheader, rfl⟩

/-- No definition of a function is found if and only if no node defines it. -/
theorem find?_definitions_eq_none_iff {order : List NodeId} {index : Nat} :
  (order.filterMap t.definitionAt?).find? (·.1 == index) = none
    ↔ ∀ id ∈ order, ∀ header, ¬ t.DefinesAt id index header
  := by
  rw [List.find?_eq_none]
  constructor
  · intro h id hid header hheader
    have hat := definitionAt?_eq_some_iff.mpr ⟨header, hheader, rfl⟩
    apply h _ (List.mem_filterMap.mpr ⟨id, hid, hat⟩) (beq_self_eq_true index)
  · rintro h ⟨index', count⟩ hmem hindex
    obtain rfl : index' = index := eq_of_beq hindex
    obtain ⟨id, hid, hat⟩ := List.mem_filterMap.mp hmem
    obtain ⟨header, hheader, -⟩ := definitionAt?_eq_some_iff.mp hat
    apply h id hid header hheader

/-- What is found about a call: it has no definition, or the first one takes another number of
parameters than the call gives arguments. -/
theorem mem_callFindings_iff {order : List NodeId} {index count : Nat} {finding : Finding} :
  finding ∈ callFindings (order.filterMap t.definitionAt?) (index, count)
    ↔ (finding = .unresolvedIndex ∧ ∀ id ∈ order, ∀ header, ¬ t.DefinesAt id index header)
      ∨ finding = .callArity ∧ ∃ header, t.DefinesFirst order index header
        ∧ count ≠ t.chainLength header.right
  := by
  rw [← find?_definitions_eq_none_iff]
  have hfirst : (∃ header, t.DefinesFirst order index header
        ∧ count ≠ t.chainLength header.right)
      ↔ ∃ definition, (order.filterMap t.definitionAt?).find? (·.1 == index) = some definition
        ∧ count ≠ definition.2 := by
    simp only [find?_definitions_eq_some_iff]
    constructor
    · rintro ⟨header, hheader, hne⟩
      exact ⟨_, ⟨header, hheader, rfl⟩, hne⟩
    · rintro ⟨_, ⟨header, hheader, rfl⟩, hne⟩
      exact ⟨header, hheader, hne⟩
  rw [hfirst, callFindings]
  dsimp only
  generalize (order.filterMap t.definitionAt?).find? (·.1 == index) = found
  cases found with
  | none => simp
  | some definition =>
    by_cases heq : definition.2 = count
    · simp [heq]
    · simp [heq, Ne.symm heq]

/-- The calls among the nodes that can be reached, with the numbers of their arguments. -/
theorem mem_calls_iff {index count : Nat} :
  (index, count) ∈ (t.reached.map (·.2)).filterMap t.call?
    ↔ ∃ id n, t.Reaches id n ∧ n.Calls index ∧ t.chainLength n.right = count
  := by
  have hcall : ∀ n, t.call? n = some (index, count)
      ↔ n.Calls index ∧ t.chainLength n.right = count := by
    intro n
    unfold call? Node.Calls
    split <;> simp_all
  simp only [List.mem_filterMap, mem_reachedNodes_iff, hcall]
  constructor
  · rintro ⟨n, ⟨id, hreaches⟩, hcalls⟩
    exact ⟨id, n, hreaches, hcalls⟩
  · rintro ⟨id, n, hreaches, hcalls⟩
    exact ⟨n, ⟨id, hreaches⟩, hcalls⟩

/-! ### The findings -/

/-- A finding that is not about links is about a node or a call that can be reached. -/
theorem contains_verify_iff {finding : Finding} (hlinks : finding ≠ .cycleFound)
    (hroot : t.root = none → finding ≠ .rootMissing) :
  t.verify.contains finding
    ↔ (∃ id n, t.Reaches id n ∧ finding ∈ t.nodeFindings n)
      ∨ ∃ id n index, t.Reaches id n ∧ n.Calls index
        ∧ finding ∈ callFindings ((reachedIds t.visits).filterMap t.definitionAt?)
          (index, t.chainLength n.right)
  := by
  have hnodes : (t.reached.map (·.2)).filterMap t.definition?
      = (reachedIds t.visits).filterMap t.definitionAt? := by
    rw [map_snd_reached, List.filterMap_filterMap]
    rfl
  have hfound : finding ∈ (t.reached.map (·.2)).flatMap t.nodeFindings
        ++ ((t.reached.map (·.2)).filterMap t.call?).flatMap
          (callFindings ((t.reached.map (·.2)).filterMap t.definition?))
      ↔ t.verify.contains finding := by
    rw [verify]
    split
    · -- without a root nothing is reached
      rename_i hnone
      rw [Option.isNone_iff_eq_none] at hnone
      have hempty : t.reached = [] := by simp [reached, visits, hnone, visitsFrom]
      simp [Findings.contains_ofList, hempty, hroot hnone]
    · have hnot : finding ∉ t.linkFindings t.visits := by
        unfold linkFindings
        dsimp only
        split <;> simp [hlinks]
      dsimp only
      rw [Findings.contains_ofList, List.append_assoc,
        @List.mem_append _ _ (t.linkFindings t.visits), or_iff_right hnot]
  rw [← hfound, hnodes, List.mem_append]
  apply or_congr
  · simp only [List.mem_flatMap, mem_reachedNodes_iff]
    constructor
    · rintro ⟨n, ⟨id, hreaches⟩, hmem⟩
      exact ⟨id, n, hreaches, hmem⟩
    · rintro ⟨id, n, hreaches, hmem⟩
      exact ⟨n, ⟨id, hreaches⟩, hmem⟩
  · rw [List.mem_flatMap, Prod.exists]
    simp only [mem_calls_iff]
    constructor
    · rintro ⟨index, _, ⟨id, n, hreaches, hcalls, rfl⟩, hmem⟩
      exact ⟨id, n, index, hreaches, hcalls, hmem⟩
    · rintro ⟨id, n, index, hreaches, hcalls, hmem⟩
      exact ⟨index, _, ⟨id, n, hreaches, hcalls, rfl⟩, hmem⟩

/-- The findings about children. -/
def childFindings : List Finding :=
  [.noType, .operationWrongChildren, .numberWrongChildren, .variableWrongChildren]

/-- Findings about children are among the findings about children. -/
theorem mem_childFindings {kind : NodeKind} {finding : Finding}
    (h : kind.childFinding? = some finding) :
  finding ∈ childFindings
  := by
  revert h
  cases kind <;> rintro ⟨⟩ <;> decide

/-- A finding about children is reported if and only if some node of that kind has the wrong
children. -/
theorem contains_childFinding_iff {finding : Finding} (h : finding ∈ childFindings) :
  t.verify.contains finding
    ↔ ∃ id n, t.Reaches id n ∧ n.kind.childFinding? = some finding ∧ ¬ t.FitsChildren n
  := by
  have hothers : ∀ finding ∈ childFindings, finding ≠ .rootMissing ∧ finding ≠ .cycleFound
      ∧ finding ≠ .unresolvedIndex ∧ finding ≠ .callArity := by decide
  obtain ⟨hroot, hcycle, hindex, harity⟩ := hothers finding h
  rw [contains_verify_iff hcycle fun _ => hroot]
  simp only [mem_nodeFindings_iff, mem_callFindings_iff, hindex, harity, false_and, or_false,
    and_false, exists_false]

/-- An unresolved index is reported if and only if some node has a position without a name, or calls
a function that no node defines. -/
theorem contains_unresolvedIndex_iff :
  t.verify.contains .unresolvedIndex
    ↔ (∃ id n, t.Reaches id n ∧ t.IsUnnamed n)
      ∨ ∃ id n index, t.Reaches id n ∧ n.Calls index
        ∧ ¬ ∃ id' header, t.Reachable id' ∧ t.DefinesAt id' index header
  := by
  have hnode : ∀ n, .unresolvedIndex ∈ t.nodeFindings n ↔ t.IsUnnamed n := by
    intro n
    rw [mem_nodeFindings_iff, eq_self, true_and, or_iff_right]
    rintro ⟨hchild, -⟩
    exact absurd (mem_childFindings hchild) (by decide)
  have hcall : ∀ index, (∀ id ∈ reachedIds t.visits, ∀ header, ¬ t.DefinesAt id index header)
      ↔ ¬ ∃ id header, t.Reachable id ∧ t.DefinesAt id index header := by
    intro index
    constructor
    · rintro h ⟨id, header, hreach, hdefines⟩
      have hlt : id < t.size := by
        obtain ⟨n, link, hget, -⟩ := hdefines
        apply lt_size_of_get? hget
      exact h id (mem_reachedIds_iff.mpr ⟨hreach, hlt⟩) header hdefines
    · intro h id hid header hdefines
      exact h ⟨id, header, (mem_reachedIds_iff.mp hid).1, hdefines⟩
  rw [contains_verify_iff (by decide) fun _ => by decide]
  simp only [hnode, mem_callFindings_iff, hcall, true_and, reduceCtorEq, false_and, or_false]

/-- Other findings are not about single nodes. -/
theorem not_mem_nodeFindings {n : Node} {finding : Finding} (hchild : finding ∉ childFindings)
    (hindex : finding ≠ .unresolvedIndex) :
  finding ∉ t.nodeFindings n
  := by
  rw [mem_nodeFindings_iff]
  rintro (⟨hfinding, -⟩ | ⟨rfl, -⟩)
  · exact hchild (mem_childFindings hfinding)
  · exact hindex rfl

/-- A wrong number of arguments is reported if and only if some call has another number of arguments
than the first definition of its function has parameters. -/
theorem contains_callArity_iff :
  t.verify.contains .callArity
    ↔ ∃ id n index header, t.Reaches id n ∧ n.Calls index
      ∧ t.DefinesFirst (reachedIds t.visits) index header
      ∧ t.chainLength n.right ≠ t.chainLength header.right
  := by
  have hnode : ∀ n, .callArity ∉ t.nodeFindings n :=
    fun n => not_mem_nodeFindings (by decide) (by decide)
  rw [contains_verify_iff (by decide) fun _ => by decide]
  simp only [hnode, mem_callFindings_iff, and_false, exists_false, reduceCtorEq, false_and,
    true_and, false_or, exists_and_left]

/-- Without a root nothing else is reported. -/
theorem verify_of_root_none (h : t.root = none) :
  t.verify = .ofList [.rootMissing]
  := by
  rw [verify, h]
  rfl

/-- A missing root is reported if and only if there is none. -/
theorem contains_rootMissing_iff :
  t.verify.contains .rootMissing ↔ t.root = none
  := by
  cases hroot : t.root with
  | none =>
    rw [verify_of_root_none hroot]
    decide
  | some root =>
    have hnode : ∀ n, .rootMissing ∉ t.nodeFindings n :=
      fun n => not_mem_nodeFindings (by decide) (by decide)
    rw [contains_verify_iff (by decide) (by rw [hroot]; nofun)]
    simp only [hnode, mem_callFindings_iff, and_false, exists_false, reduceCtorEq, false_and,
      or_self]

/-- What verification finds apart from links, for every tree.  The nodes that can be reached have
one depth-first order.  A finding about children is made exactly if the children of one of these
nodes do not fit its kind; an index is unresolved exactly if one of them is unnamed or calls a
function that none of them defines; and the arity of a call is wrong exactly if it gives another
number of arguments than the first definition takes parameters.  The root is missing exactly if
there is none, and then nothing else is found. -/
theorem verify_findings_exact (t : Tree) :
  ∃ order, t.DepthFirst [] t.root.toList order
    ∧ (∀ other, t.DepthFirst [] t.root.toList other → other = order)
    ∧ (∀ id, id ∈ order ↔ t.Reachable id ∧ id < t.size)
    ∧ (∀ finding ∈ childFindings, t.verify.contains finding
        ↔ ∃ id n, t.Reaches id n ∧ n.kind.childFinding? = some finding ∧ ¬ t.FitsChildren n)
    ∧ (t.verify.contains .unresolvedIndex
        ↔ (∃ id n, t.Reaches id n ∧ t.IsUnnamed n)
          ∨ ∃ id n index, t.Reaches id n ∧ n.Calls index
            ∧ ¬ ∃ id' header, t.Reachable id' ∧ t.DefinesAt id' index header)
    ∧ (t.verify.contains .callArity
        ↔ ∃ id n index header, t.Reaches id n ∧ n.Calls index
          ∧ t.DefinesFirst order index header
          ∧ t.chainLength n.right ≠ t.chainLength header.right)
    ∧ (∀ head steps, steps < t.chainLength head
        ↔ steps < t.size ∧ t.chainNode? head steps ≠ none)
    ∧ (t.verify.contains .rootMissing ↔ t.root = none)
    ∧ (t.root = none → t.verify = .ofList [.rootMissing])
  := by
  use reachedIds t.visits, depthFirst_visits, fun other hother => hother.unique depthFirst_visits,
    fun id => mem_reachedIds_iff
  use fun finding => contains_childFinding_iff, contains_unresolvedIndex_iff,
    contains_callArity_iff, fun _ _ => lt_chainLength_iff, contains_rootMissing_iff,
    verify_of_root_none

end Tree

end StackCompiler
