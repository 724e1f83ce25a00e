import StackCompiler.Proofs.Exchange.RoundTrip
import StackCompiler.Proofs.Program.Tokens
import StackCompiler.Proofs.SymbolTable.Histories

/-!
# Reading by recursive descent

The reader keeps the nodes whose children are not complete on a stack.  It comes to the same end as
a reader that calls itself for the left child and then for the right child: the same nodes in the
same order, the same names, the same symbols left, or the same error.

Hence a text is read exactly if its symbols form one node, and what is read depends only on the
shape of that node.  Names are reserved as soon as the kind of a node is known, and in the end they
are the ones that the arena needs.
-/

namespace StackCompiler

namespace Exchange

/-- What the recursive reader comes to: the link to the node that it read, the tree with all its
nodes, and the symbols that are left, of which there are fewer. -/
structure Descent (symbols : List Placed) where
  link : Option NodeId
  tree : Tree
  rest : List Placed
  shorter : rest.length < symbols.length

namespace Descent

variable {symbols : List Placed}

/-- The link, the tree and the symbols that are left. -/
def outcome (d : Descent symbols) : Option NodeId × Tree × List Placed :=
  (d.link, d.tree, d.rest)

/-- The same, for symbols that are followed by what was read. -/
def widen (d : Descent symbols) {larger : List Placed} (h : symbols.length ≤ larger.length) :
    Descent larger :=
  { d with shorter := Nat.lt_of_lt_of_le d.shorter h }

/-- Reads the closing parenthesis of a node whose children are complete, and adds the node to the
arena. -/
def close (right : Descent symbols) (stop : Nat) (kind : NodeKind) (left : Option NodeId) :
    Except ReadError (Descent symbols) :=
  match right with
  | { link, tree, rest := ⟨.closing, _⟩ :: rest, shorter } =>
    let (id, tree) := tree.node kind left link
    .ok { link := some id, tree, rest, shorter := Nat.lt_of_succ_lt shorter }
  | { rest, .. } => .error (unexpected stop .closing rest)

end Descent

/-- Reads one node from symbols of a text that ends at `stop`: its tag and payload, its left child,
its right child, and its closing parenthesis.  Names are reserved as soon as the tag and the payload
are read. -/
def descend (stop : Nat) (t : Tree) (symbols : List Placed) :
    Except ReadError (Descent symbols) :=
  match symbols with
  | ⟨.opening, _⟩ :: inner =>
    match hkind : readKind stop inner with
    | .ok (kind, children) => do
      have hchildren := length_lt_of_readKind hkind
      let left ← descend stop (t.reserve kind) children
      have hleft := left.shorter
      let right ← descend stop left.tree left.rest
      let node ← right.close stop kind left.link
      return node.widen (by rw [List.length_cons]; omega)
    | .error error => .error error
  | ⟨.absent, _⟩ :: rest => .ok { link := none, tree := t, rest, shorter := Nat.lt_succ_self _ }
  | _ => .error (unexpected stop .node symbols)
termination_by symbols.length
decreasing_by
  · rw [List.length_cons]
    omega
  · rw [List.length_cons]
    omega

end Exchange

/-! ### The loop with its stack -/

namespace Exchange

variable {stop : Nat}

/-- The loop closes a node whose children are complete as the recursive reader does. -/
theorem readFrom_eq_close {symbols : List Placed} (right : Descent symbols) (kind : NodeKind)
    (left : Option NodeId) (waiting : List Pending) :
  readFrom stop right.tree (⟨kind, some left⟩ :: waiting) (.complete right.link) right.rest
    = right.close stop kind left >>= fun d =>
        readFrom stop d.tree waiting (.complete d.link) d.rest
  := by
  match right with
  | { link, tree, rest := ⟨.closing, _⟩ :: rest, .. } =>
    rw [readFrom_closing]
    rfl
  | { rest := [], .. } | { rest := ⟨.absent, _⟩ :: _, .. } | { rest := ⟨.opening, _⟩ :: _, .. }
  | { rest := ⟨.number _, _⟩ :: _, .. } =>
    rw [readFrom]
    · rfl
    · simp

/-- The loop reads a node as the recursive reader does and goes on with what waits for it. -/
theorem readFrom_eq_descend (t : Tree) (waiting : List Pending) (symbols : List Placed) :
  readFrom stop t waiting .awaiting symbols
    = descend stop t symbols >>= fun d =>
        readFrom stop d.tree waiting (.complete d.link) d.rest
  := by
  fun_induction descend stop t symbols generalizing waiting with
  | case1 t span inner kind children hkind _ ihl ihr =>
    rw [readFrom_opening stop hkind, ihl]
    cases descend stop (t.reserve kind) children with
    | error error => rfl
    | ok left =>
      -- The left child is complete: its node waits on, now for the right child.
      dsimp only [bind, Except.bind]
      apply ((readFrom_left stop).trans (ihr left _)).trans
      cases descend stop left.tree left.rest with
      | error error => rfl
      | ok right =>
        apply (readFrom_eq_close right kind left.link waiting).trans
        dsimp only
        cases right.close stop kind left.link <;> rfl
  | case2 t span inner error hkind => exact readFrom_opening_error stop hkind
  | case3 t span rest => exact readFrom_absent stop
  | case4 t symbols hopening habsent =>
    rw [readFrom]
    · rfl
    · apply habsent
    · apply hopening

/-- If nothing waits, then the loop ends where the recursive reader does. -/
theorem readFrom_eq_map_descend (stop : Nat) (t : Tree) (symbols : List Placed) :
  readFrom stop t [] .awaiting symbols = (descend stop t symbols).map Descent.outcome
  := by
  rw [readFrom_eq_descend]
  cases descend stop t symbols with
  | error error => rfl
  | ok d => exact readFrom_complete stop

/-! ### The grammar -/

/-- Symbols that form one node: a node that is absent, or the tag and the payload of a kind and two
nodes between parentheses. -/
inductive Writes : List Symbol → Shape → Prop where
  | absent : Writes [.absent] .absent
  | node {tag payload : Binary64} {number : Int} {kind : NodeKind} {left right : List Symbol}
      {l r : Shape} (htag : NodeKind.tag? tag = some number)
      (hpayload : NodeKind.ofPayload? number payload = some kind)
      (hleft : Writes left l) (hright : Writes right r) :
    Writes (.opening :: .number tag :: .number payload :: (left ++ right ++ [.closing]))
      (.node kind l r)

/-- A kind is read from a number for a tag and a number for a payload of that tag. -/
theorem readKind_eq_ok_iff {symbols rest : List Placed} {kind : NodeKind} :
  readKind stop symbols = .ok (kind, rest)
    ↔ ∃ tag tagSpan payload payloadSpan number,
        symbols = ⟨.number tag, tagSpan⟩ :: ⟨.number payload, payloadSpan⟩ :: rest
          ∧ NodeKind.tag? tag = some number ∧ NodeKind.ofPayload? number payload = some kind
  := by
  constructor
  · intro h
    unfold readKind at h
    split at h
    · rename_i tag tagSpan payload payloadSpan others
      split at h
      · cases h
      · rename_i number htag
        split at h
        · cases h
        · rename_i hpayload
          cases h
          exact ⟨tag, tagSpan, payload, payloadSpan, number, rfl, htag, hpayload⟩
    · cases h
    · cases h
  · rintro ⟨tag, tagSpan, payload, payloadSpan, number, rfl, htag, hpayload⟩
    simp only [readKind, htag, hpayload]

end Exchange

/-- Adds the nodes of a shape to the arena, a node after what hangs on it and left before right.
The names that a node refers to are reserved before its children are added. -/
def Tree.plant (t : Tree) : Shape → Option NodeId × Tree
  | .absent => (none, t)
  | .node kind l r =>
    let (left, t) := (t.reserve kind).plant l
    let (right, t) := t.plant r
    let (id, t) := t.node kind left right
    (some id, t)

namespace Exchange

/-- A node is completed by a closing parenthesis. -/
theorem Descent.close_eq_ok {symbols : List Placed} {right node : Descent symbols}
    {kind : NodeKind} {left : Option NodeId} (h : right.close stop kind left = .ok node) :
  ∃ span, right.rest = ⟨.closing, span⟩ :: node.rest
    ∧ right.tree.node kind left right.link = (right.tree.size, node.tree)
    ∧ node.link = some right.tree.size
  := by
  match right, h with
  | { rest := ⟨.closing, span⟩ :: rest, .. }, rfl => exact ⟨span, rfl, rfl, rfl⟩

/-- A closing parenthesis completes a node. -/
theorem Descent.exists_close_eq_ok {symbols : List Placed} {right : Descent symbols}
    (stop : Nat) (kind : NodeKind) (left : Option NodeId) {span : Span} {rest : List Placed}
    (h : right.rest = ⟨.closing, span⟩ :: rest) :
  ∃ node, right.close stop kind left = .ok node ∧ node.rest = rest
  := by
  match right, h with
  | { rest := ⟨.closing, span⟩ :: rest, .. }, rfl => exact ⟨_, rfl, rfl⟩

/-- After an opening parenthesis and a kind come the left child, the right child and the closing
parenthesis. -/
theorem descend_opening {t : Tree} {kind : NodeKind} {inner children : List Placed} {span : Span}
    (h : readKind stop inner = .ok (kind, children)) :
  descend stop t (⟨.opening, span⟩ :: inner) = do
    let left ← descend stop (t.reserve kind) children
    let right ← descend stop left.tree left.rest
    let node ← right.close stop kind left.link
    return node.widen (by
      have hchildren := length_lt_of_readKind h
      have hleft := left.shorter
      rw [List.length_cons]
      omega)
  := by
  rw [descend]
  split
  · rename_i hkind
    rw [h] at hkind
    cases hkind
    rfl
  · rename_i hkind
    rw [h] at hkind
    cases hkind

/-- What the recursive reader accepts starts with one node, and the arena has grown by its shape. -/
theorem exists_writes_of_descend {t : Tree} {symbols : List Placed} {d : Descent symbols}
    (h : descend stop t symbols = .ok d) :
  ∃ written s, Writes written s ∧ symbols.map (·.symbol) = written ++ d.rest.map (·.symbol)
    ∧ t.plant s = (d.link, d.tree)
  := by
  fun_induction descend stop t symbols with
  | case1 t span inner kind children hkind _ ihl ihr =>
    obtain ⟨left, hleft, h⟩ := Parse.bind_eq_ok.mp h
    obtain ⟨right, hright, h⟩ := Parse.bind_eq_ok.mp h
    obtain ⟨node, hnode, h⟩ := Parse.bind_eq_ok.mp h
    cases h
    obtain ⟨tag, tagSpan, payload, payloadSpan, number, rfl, htag, hpayload⟩ :=
      readKind_eq_ok_iff.mp hkind
    obtain ⟨leftWritten, l, hl, hchildren, hplantLeft⟩ := ihl hleft
    obtain ⟨rightWritten, r, hr, hrest, hplantRight⟩ := ihr left hright
    obtain ⟨closingSpan, hclosing, hnew, hlink⟩ := Descent.close_eq_ok hnode
    refine ⟨_, _, .node htag hpayload hl hr, ?_, ?_⟩
    · simp [Descent.widen, hchildren, hrest, hclosing]
    · simp only [Tree.plant, hplantLeft, hplantRight, hnew, Descent.widen, hlink]
  | case2 t span inner error hkind => cases h
  | case3 t span rest =>
    cases h
    exact ⟨_, _, .absent, rfl, rfl⟩
  | case4 t symbols hopening habsent => cases h

/-- The recursive reader accepts symbols that start with one node. -/
theorem descend_of_writes {written : List Symbol} {s : Shape} (h : Writes written s) {t : Tree}
    {symbols : List Placed} {further : List Symbol}
    (hsymbols : symbols.map (·.symbol) = written ++ further) :
  ∃ d : Descent symbols, descend stop t symbols = .ok d ∧ d.rest.map (·.symbol) = further
    ∧ t.plant s = (d.link, d.tree)
  := by
  induction h generalizing t symbols further with
  | absent =>
    obtain ⟨⟨_, span⟩, rest, rfl, rfl, hrest⟩ := List.map_eq_cons_iff.mp hsymbols
    rw [descend]
    exact ⟨_, rfl, hrest, rfl⟩
  | @node tag payload number kind left right l r htag hpayload hleft hright ihl ihr =>
    obtain ⟨⟨_, span⟩, inner, rfl, rfl, hinner⟩ := List.map_eq_cons_iff.mp hsymbols
    obtain ⟨⟨_, tagSpan⟩, others, rfl, rfl, hothers⟩ := List.map_eq_cons_iff.mp hinner
    obtain ⟨⟨_, payloadSpan⟩, children, rfl, rfl, hchildren⟩ := List.map_eq_cons_iff.mp hothers
    have hkind : readKind stop (⟨.number tag, tagSpan⟩ :: ⟨.number payload, payloadSpan⟩
        :: children) = .ok (kind, children) :=
      readKind_eq_ok_iff.mpr ⟨_, _, _, _, _, rfl, htag, hpayload⟩
    obtain ⟨d, hd, hrest, hplantLeft⟩ :=
      @ihl (t.reserve kind) children (right ++ .closing :: further) (by simpa using hchildren)
    obtain ⟨e, he, hclosing, hplantRight⟩ := @ihr d.tree d.rest (.closing :: further) hrest
    obtain ⟨⟨_, closingSpan⟩, rest, hclose, rfl, hfurther⟩ := List.map_eq_cons_iff.mp hclosing
    obtain ⟨node, hnode, rfl⟩ := Descent.exists_close_eq_ok stop kind d.link hclose
    obtain ⟨-, -, hnew, hlink⟩ := Descent.close_eq_ok hnode
    rw [descend_opening hkind]
    simp only [hd, he, hnode, bind, Except.bind]
    refine ⟨_, rfl, hfurther, ?_⟩
    simp only [Tree.plant, hplantLeft, hplantRight, hnew, Descent.widen, hlink]

end Exchange

/-! ### Placeholder names -/

namespace SymbolTable

/-- The first `count` placeholder names. -/
def numbered (stem : String) (count : Nat) : SymbolTable where
  names := (List.range count).map fun n => stem ++ toString n

/-- There are as many placeholder names as were asked for. -/
theorem size_numbered (stem : String) (count : Nat) :
  (numbered stem count).size = count
  := by
  simp [size, numbered]

/-- A placeholder name for a new position is never taken by earlier ones. -/
theorem freshName_numbered {stem : String} {count n : Nat} (h : count ≤ n) (underscores : Nat) :
  freshName (Std.TreeSet.ofList (numbered stem count).names compare).contains
      (stem ++ toString n) underscores
    = stem ++ toString n
  := by
  have hfree : stem ++ toString n ∉ (numbered stem count).names := by
    intro hmem
    obtain ⟨m, hm, heq⟩ := List.mem_map.mp hmem
    have hmn : m = n := by
      apply @eq_of_underscored_toString_eq stem m n 0 0
      rw [underscored_zero, underscored_zero, heq]
    have hlt := List.mem_range.mp hm
    omega
  cases underscores with
  | zero => rfl
  | succ underscores =>
    rw [freshName, Std.TreeSet.contains_ofList, if_neg (by simpa using hfree)]

/-- Placeholder names are added in their order. -/
theorem reserveThrough_numbered (stem : String) (count index : Nat) :
  (numbered stem count).reserveThrough index stem = numbered stem (max count (index + 1))
  := by
  rw [reserveThrough, size_numbered]
  split
  · rename_i hlt
    rw [Nat.max_eq_left hlt]
  · rename_i hge
    have hcount : max count (index + 1) = count + (index + 1 - count) := by omega
    have hadded : ∀ n ∈ List.range' count (index + 1 - count),
        freshName (Std.TreeSet.ofList (numbered stem count).names compare).contains
          (stem ++ toString n) count = stem ++ toString n := by
      intro n hn
      apply freshName_numbered
      exact (List.mem_range'_1.mp hn).1
    dsimp only
    rw [List.map_congr_left hadded, hcount]
    rw [numbered, numbered, ← List.map_append, List.range_eq_range', List.range_eq_range',
      ← List.range'_append_1, Nat.zero_add]

end SymbolTable

namespace Exchange

/-- A table with placeholder names for all positions up to the largest of the given ones. -/
def placeholders (indices : List Nat) (stem : String) : SymbolTable :=
  match indices.max? with
  | none => {}
  | some largest => SymbolTable.reserveThrough {} largest stem

/-- The positions up to the largest one get placeholder names. -/
theorem placeholders_of_max {indices : List Nat} {largest : Nat} (hmem : largest ∈ indices)
    (hle : ∀ index ∈ indices, index ≤ largest) (stem : String) :
  placeholders indices stem = .numbered stem (largest + 1)
  := by
  rw [placeholders, List.max?_eq_some_iff.mpr ⟨hmem, hle⟩]
  exact (SymbolTable.reserveThrough_numbered stem 0 largest).trans (by rw [Nat.zero_max])

/-- Only the positions matter to placeholders, not their order. -/
theorem placeholders_congr {indices others : List Nat}
    (h : ∀ index, index ∈ indices ↔ index ∈ others) (stem : String) :
  placeholders indices stem = placeholders others stem
  := by
  cases hmax : indices.max? with
  | none =>
    obtain rfl := List.max?_eq_none_iff.mp hmax
    obtain rfl : others = [] :=
      List.eq_nil_iff_forall_not_mem.mpr fun index hindex => List.not_mem_nil ((h index).mpr hindex)
    rfl
  | some largest =>
    obtain ⟨hmem, hle⟩ := List.max?_eq_some_iff.mp hmax
    rw [placeholders_of_max hmem hle, placeholders_of_max ((h largest).mp hmem)]
    exact fun index hindex => hle index ((h index).mpr hindex)

/-- One more position is reserved after the others. -/
theorem placeholders_concat (indices : List Nat) (index : Nat) (stem : String) :
  placeholders (indices ++ [index]) stem = (placeholders indices stem).reserveThrough index stem
  := by
  cases hmax : indices.max? with
  | none =>
    obtain rfl := List.max?_eq_none_iff.mp hmax
    rfl
  | some largest =>
    obtain ⟨hmem, hle⟩ := List.max?_eq_some_iff.mp hmax
    rw [placeholders_of_max hmem hle, SymbolTable.reserveThrough_numbered]
    have hsucc : max (largest + 1) (index + 1) = max largest index + 1 := by omega
    rw [hsucc]
    apply placeholders_of_max
    · rcases Nat.le_total largest index with hlarge | hlarge
      · simp [Nat.max_eq_right hlarge]
      · simp [Nat.max_eq_left hlarge, hmem]
    · intro i hi
      rcases List.mem_append.mp hi with hi | hi
      · exact (hle i hi).trans (Nat.le_max_left _ _)
      · exact (List.mem_singleton.mp hi).le.trans (Nat.le_max_right _ _)

end Exchange

/-! ### Planted trees -/

/-- The kinds of the nodes, a node before what hangs on it and left before right. -/
def Shape.kinds : Shape → List NodeKind
  | .absent => []
  | .node kind l r => kind :: (l.kinds ++ r.kinds)

namespace Tree

/-- The kinds of the nodes in the order of the arena. -/
def kinds (t : Tree) : List NodeKind := t.nodes.toList.map (·.kind)

/-- The kinds stand in the order of the arena. -/
theorem getElem?_kinds (t : Tree) (id : NodeId) :
  t.kinds[id]? = (t.get? id).map (·.kind)
  := by
  rw [kinds, List.getElem?_map, Array.getElem?_toList, get?]

/-- A new node stands at the end of the arena. -/
theorem kinds_node (t : Tree) (kind : NodeKind) (left right : Option NodeId) :
  (t.node kind left right).2.kinds = t.kinds ++ [kind]
  := by
  have hlength : t.kinds.length = t.size := by simp [kinds, size]
  apply List.ext_getElem?
  intro id
  rw [getElem?_kinds, get?_node, Option.map_map, ← hlength]
  -- Adoption by the new node changes no kind.
  have hkind : ((fun n : Node => n.kind) ∘ fun n => if id ∈ left.toList ++ right.toList
      then { n with parent := some t.kinds.length } else n) = fun n => n.kind := by
    funext n
    simp only [Function.comp_apply]
    split <;> rfl
  rw [hkind]
  rcases Nat.lt_trichotomy id t.kinds.length with hid | rfl | hid
  · rw [if_neg hid.ne, List.getElem?_append_left hid, getElem?_kinds]
  · rw [if_pos rfl, List.getElem?_concat_length, Option.map_some]
  · rw [if_neg hid.ne', ← getElem?_kinds, List.getElem?_eq_none hid.le, List.getElem?_eq_none]
    rw [List.length_append, List.length_singleton]
    omega

/-- The tables hold placeholder names for nodes of the given kinds. -/
structure Reserves (t : Tree) (kinds : List NodeKind) : Prop where
  vars : t.vars = Exchange.placeholders (kinds.filterMap (·.variableIndex?)) "var"
  funcs : t.funcs = Exchange.placeholders (kinds.filterMap (·.functionIndex?)) "func"

namespace Reserves

variable {t : Tree} {kinds : List NodeKind}

/-- It matters which kinds occur, not how often or in which order. -/
theorem congr {others : List NodeKind} (h : t.Reserves kinds)
    (hothers : ∀ kind, kind ∈ kinds ↔ kind ∈ others) :
  t.Reserves others
  where
  vars := h.vars.trans (Exchange.placeholders_congr (by simp [hothers]) _)
  funcs := h.funcs.trans (Exchange.placeholders_congr (by simp [hothers]) _)

/-- A new node changes no names. -/
theorem node (h : t.Reserves kinds) (kind : NodeKind) (left right : Option NodeId) :
  (t.node kind left right).2.Reserves kinds
  := by
  obtain ⟨hvars, hfuncs⟩ := t.tables_node kind left right
  exact ⟨hvars.trans h.vars, hfuncs.trans h.funcs⟩

/-- The names for one more kind are reserved after the others. -/
theorem reserve (h : t.Reserves kinds) (kind : NodeKind) :
  (t.reserve kind).Reserves (kinds ++ [kind])
  := by
  match kind with
  | .variable index =>
    constructor
    · simp [Tree.reserve, h.vars, NodeKind.variableIndex?, Exchange.placeholders_concat]
    · simp [Tree.reserve, h.funcs, NodeKind.functionIndex?]
  | .function index =>
    constructor
    · simp [Tree.reserve, h.vars, NodeKind.variableIndex?]
    · simp [Tree.reserve, h.funcs, NodeKind.functionIndex?, Exchange.placeholders_concat]
  | .hole | .separator | .binary _ | .unary _ | .control _ | .number _ =>
    constructor
    · simp [Tree.reserve, h.vars, NodeKind.variableIndex?]
    · simp [Tree.reserve, h.funcs, NodeKind.functionIndex?]

/-- A planted shape leaves names for its kinds. -/
theorem plant (h : t.Reserves kinds) (s : Shape) :
  (t.plant s).2.Reserves (kinds ++ s.kinds)
  := by
  induction s generalizing t kinds with
  | absent => simpa [Shape.kinds, Tree.plant] using h
  | node kind l r ihl ihr =>
    have hchildren := ihr (ihl (h.reserve kind))
    rw [List.append_assoc, List.append_assoc, List.singleton_append] at hchildren
    apply hchildren.node

end Reserves

/-- Reserving names changes no node. -/
theorem kinds_reserve (t : Tree) (kind : NodeKind) :
  (t.reserve kind).kinds = t.kinds
  := by
  rw [kinds, nodes_reserve, kinds]

/-- A planted shape adds its kinds to the arena. -/
theorem kinds_plant (t : Tree) (s : Shape) :
  (t.plant s).2.kinds.Perm (t.kinds ++ s.kinds)
  := by
  induction s generalizing t with
  | absent => simp [plant, Shape.kinds]
  | node kind l r ihl ihr =>
    have hleft := ihl (t.reserve kind)
    have hright := ihr ((t.reserve kind).plant l).2
    rw [kinds_reserve] at hleft
    simp only [plant, kinds_node, Shape.kinds]
    have hchildren := hright.trans (hleft.append_right r.kinds)
    rw [List.append_assoc] at hchildren
    apply (List.perm_append_singleton kind _).trans
    apply (hchildren.cons kind).trans
    exact List.perm_middle.symm

/-- The tree that holds a shape and nothing else, with placeholder names. -/
def ofShape (s : Shape) : Tree :=
  { (plant {} s).2 with root := (plant {} s).1 }

/-- The arena of a planted shape holds the kinds of the shape and no others. -/
theorem kinds_ofShape (s : Shape) :
  (ofShape s).kinds.Perm s.kinds
  := kinds_plant {} s

/-- Names that are reserved while a shape is planted are those of the arena in the end. -/
theorem reserves_ofShape (s : Shape) :
  (ofShape s).Reserves (ofShape s).kinds
  := by
  have hempty : ({} : Tree).Reserves [] := ⟨rfl, rfl⟩
  obtain ⟨hvars, hfuncs⟩ := (hempty.plant s).congr fun kind => (kinds_ofShape s).mem_iff.symm
  exact ⟨hvars, hfuncs⟩

end Tree

/-! ### Whole texts -/

namespace Exchange

/-- The tree that was read, if no symbols are left. -/
def finish : Option NodeId × Tree × List Placed → Except ReadError Tree
  | (root, t, []) => .ok { t with root }
  | (_, _, placed :: _) => .error (.trailing placed.span)

end Exchange

namespace Tree

/-- The tree that a text writes, read by recursive descent. -/
def readByDescent (text : String) : Except ReadError Tree := do
  let symbols ← (Exchange.scanFrom 0 text.toList).mapError .invalid
  let d ← Exchange.descend text.utf8ByteSize {} symbols
  Exchange.finish d.outcome

/-- A text that can be cut into symbols is read by the loop, and no symbol may be left. -/
theorem read_eq_finish {text : String} {placed : List Exchange.Placed}
    (hscan : Exchange.scanFrom 0 text.toList = .ok placed) :
  read text
    = Exchange.readFrom text.utf8ByteSize {} [] .awaiting placed >>= Exchange.finish
  := by
  rw [read, hscan]
  dsimp only [Except.mapError, bind, Except.bind]
  cases Exchange.readFrom text.utf8ByteSize {} [] .awaiting placed with
  | error error => rfl
  | ok found =>
    obtain ⟨root, t, rest⟩ := found
    cases rest <;> rfl

/-- A text is read as by recursive descent. -/
theorem read_eq_readByDescent (text : String) :
  read text = readByDescent text
  := by
  cases hscan : Exchange.scanFrom 0 text.toList with
  | error span =>
    rw [read, readByDescent, hscan]
    rfl
  | ok placed =>
    rw [read_eq_finish hscan, Exchange.readFrom_eq_map_descend, readByDescent, hscan]
    dsimp only [Except.mapError, bind, Except.bind]
    cases Exchange.descend text.utf8ByteSize {} placed <;> rfl

/-- A text is read if and only if its symbols form one node, and then as the tree of the shape of
that node. -/
theorem read_eq_ok_iff {text : String} {t : Tree} :
  read text = .ok t
    ↔ ∃ placed s, Exchange.scanFrom 0 text.toList = .ok placed
        ∧ Exchange.Writes (placed.map (·.symbol)) s ∧ t = ofShape s
  := by
  rw [read_eq_readByDescent, readByDescent]
  constructor
  · intro h
    cases hscan : Exchange.scanFrom 0 text.toList with
    | error span =>
      rw [hscan] at h
      cases h
    | ok placed =>
      rw [hscan, Except.mapError] at h
      obtain ⟨_, hplaced, h⟩ := Parse.bind_eq_ok.mp h
      cases hplaced
      obtain ⟨d, hd, h⟩ := Parse.bind_eq_ok.mp h
      obtain ⟨written, s, hs, hplaced, hplant⟩ := Exchange.exists_writes_of_descend hd
      cases hrest : d.rest with
      | cons next rest =>
        rw [Exchange.Descent.outcome, hrest] at h
        cases h
      | nil =>
        rw [Exchange.Descent.outcome, hrest] at h
        rw [hrest, List.map_nil, List.append_nil] at hplaced
        cases h
        use placed, s, rfl
        rw [hplaced, ofShape, hplant]
        use hs
  · rintro ⟨placed, s, hscan, hs, rfl⟩
    obtain ⟨d, hd, hrest, hplant⟩ := @Exchange.descend_of_writes text.utf8ByteSize _ s hs {} placed
      [] (List.append_nil _).symm
    rw [hscan, ofShape, hplant]
    dsimp only [Except.mapError, bind, Except.bind]
    rw [hd]
    dsimp only
    rw [Exchange.Descent.outcome, List.map_eq_nil_iff.mp hrest, Exchange.finish]

end Tree

/-- The loop with its stack reads nodes as recursive descent does, with the same link, arena, names
and symbols left or with the same error.  Hence a text is read exactly if its symbols form one
node. -/
theorem read_by_descent :
  (∀ stop t symbols,
      Exchange.readFrom stop t [] .awaiting symbols
        = (Exchange.descend stop t symbols).map Exchange.Descent.outcome)
    ∧ (∀ text, Tree.read text = Tree.readByDescent text)
    ∧ ∀ text, (∃ t, Tree.read text = .ok t)
        ↔ ∃ placed s, Exchange.scanFrom 0 text.toList = .ok placed
            ∧ Exchange.Writes (placed.map (·.symbol)) s
  := by
  refine ⟨Exchange.readFrom_eq_map_descend, Tree.read_eq_readByDescent, ?_⟩
  intro text
  constructor
  · rintro ⟨t, h⟩
    obtain ⟨placed, s, hscan, hs, -⟩ := Tree.read_eq_ok_iff.mp h
    exact ⟨placed, s, hscan, hs⟩
  · rintro ⟨placed, s, hscan, hs⟩
    exact ⟨Tree.ofShape s, Tree.read_eq_ok_iff.mpr ⟨placed, s, hscan, hs, rfl⟩⟩

end StackCompiler
