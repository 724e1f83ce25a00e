import StackCompiler.Exchange.Read
import StackCompiler.Proofs.Exchange.Scanning
import StackCompiler.Proofs.Tree.Unfolds

/-!
# Reading written trees

A written tree is read back if no position of a variable or function is too large, and otherwise it
is refused.  What is read has the same shape, up to the bits of values that are not numbers, and is
written in the same way.
-/

namespace StackCompiler

/-! ### Kinds -/

/-- A binary operator is read back from its number. -/
theorem BinaryOp.ofCode?_code (op : BinaryOp) :
  op.code < 2 ^ 53 ∧ BinaryOp.ofCode? op.code = some op
  := by
  cases op with
  | arithmetic op => cases op <;> exact ⟨by decide, rfl⟩
  | comparison op => cases op <;> exact ⟨by decide, rfl⟩
  | assign => exact ⟨by decide, rfl⟩

/-- A unary operator is read back from its number. -/
theorem UnaryOp.ofCode?_code (op : UnaryOp) :
  op.code < 2 ^ 53 ∧ UnaryOp.ofCode? op.code = some op
  := by
  cases op with
  | math op => cases op <;> exact ⟨by decide, rfl⟩
  | output op => cases op <;> exact ⟨by decide, rfl⟩
  | input => exact ⟨by decide, rfl⟩
  | ret => exact ⟨by decide, rfl⟩

/-- A control operator is read back from its number. -/
theorem ControlOp.ofCode?_code (op : ControlOp) :
  op.code < 2 ^ 53 ∧ ControlOp.ofCode? op.code = some op
  := by
  cases op <;> exact ⟨by decide, rfl⟩

namespace NodeKind

/-- Whether the reader accepts a kind of node. -/
def isReadable : NodeKind → Bool
  | .variable index => index ≤ maxSymbolIndex
  | .function index => index ≤ maxSymbolIndex
  | _ => true

/-- The position of a variable node's name. -/
def variableIndex? : NodeKind → Option Nat
  | .variable index => some index
  | _ => none

/-- The position of a function node's name. -/
def functionIndex? : NodeKind → Option Nat
  | .function index => some index
  | _ => none

/-- What a written kind of node is read as. -/
def reread : NodeKind → NodeKind
  | .number value => .number value.reread
  | kind => kind

/-- What a kind is read as has the same tag. -/
theorem tag_reread (kind : NodeKind) :
  kind.reread.tag = kind.tag
  := by
  cases kind <;> rfl

/-- What a kind is read as has the payload that is read. -/
theorem payload_reread (kind : NodeKind) :
  kind.reread.payload = kind.payload.reread
  := by
  cases kind with
  | number value => rfl
  | _ => exact (Binary64.reread_of_not_isNaN (Binary64.not_isNaN_ofNat _)).symm

/-- The tag of a kind is a tag when it is read. -/
theorem tag?_tag (kind : NodeKind) :
  tag? (.ofInt kind.tag) = some kind.tag
  := by
  have hsmall : kind.tag.natAbs < 2 ^ 53 := by cases kind <;> simp [tag]
  rw [tag?, Binary64.integer?_ofInt hsmall]
  cases kind <;> rfl

/-- A position is read back from its payload exactly if it is not too large. -/
theorem symbolIndex?_ofNat (index : Nat) :
  symbolIndex? (.ofNat index) = if index ≤ maxSymbolIndex then some index else none
  := by
  have hmax : maxSymbolIndex = 65536 := rfl
  unfold symbolIndex?
  by_cases hsmall : index < 2 ^ 53
  · rw [Binary64.integer?_ofNat hsmall]
    by_cases hindex : index ≤ maxSymbolIndex
    · rw [if_pos hindex]
      simp [Option.filter, hindex]
    · rw [if_neg hindex]
      simp [Option.filter, hindex]
  · -- A larger position may be rounded, but not to one that is small enough.
    have hlarge := Binary64.le_magnitude_ofNat (Nat.le_of_not_lt hsmall)
    rw [if_neg (by omega)]
    cases hinteger : (Binary64.ofNat index).integer? with
    | none => rfl
    | some k =>
      have hk := Binary64.le_natAbs_of_integer? hlarge hinteger
      have hfails : ¬ (0 ≤ k ∧ k ≤ maxSymbolIndex) := by omega
      simp [Option.filter, hfails]

/-- A small number is exact, so that an operator is read back from its number. -/
theorem bind_integer?_ofNat {α : Type} {code : Nat} {ofCode? : Int → Option α} {op : α}
    (h : code < 2 ^ 53 ∧ ofCode? code = some op) :
  (Binary64.ofNat code).integer?.bind ofCode? = some op
  := by
  rw [Binary64.integer?_ofNat h.1, Option.bind_some, h.2]

/-- A kind of node is read back from its tag and its payload, or it is refused. -/
theorem ofPayload?_payload (kind : NodeKind) :
  ofPayload? kind.tag kind.payload.reread = if kind.isReadable then some kind.reread else none
  := by
  rw [← payload_reread]
  match kind with
  | .hole => rfl
  | .separator =>
    have hinteger : (Binary64.ofNat 23).integer? = some 23 := Binary64.integer?_ofNat (by decide)
    simp [ofPayload?, tag, reread, payload, Mark.code, hinteger, isReadable]
  | .binary op => exact congrArg (Option.map _) (bind_integer?_ofNat op.ofCode?_code)
  | .unary op => exact congrArg (Option.map _) (bind_integer?_ofNat op.ofCode?_code)
  | .control op => exact congrArg (Option.map _) (bind_integer?_ofNat op.ofCode?_code)
  | .number value => rfl
  | .variable index =>
    apply Eq.trans (congrArg (Option.map _) (symbolIndex?_ofNat index))
    simp only [isReadable, decide_eq_true_eq]
    split <;> rfl
  | .function index =>
    apply Eq.trans (congrArg (Option.map _) (symbolIndex?_ofNat index))
    simp only [isReadable, decide_eq_true_eq]
    split <;> rfl

/-- The reader accepts kinds if and only if no position in a symbol table is too large. -/
theorem forall_isReadable {kinds : List NodeKind} :
  (∀ kind ∈ kinds, kind.isReadable)
    ↔ ∀ index, .variable index ∈ kinds ∨ .function index ∈ kinds → index ≤ maxSymbolIndex
  := by
  constructor
  · rintro h index (hmem | hmem)
    · apply of_decide_eq_true (h _ hmem)
    · apply of_decide_eq_true (h _ hmem)
  · intro h kind hmem
    match kind with
    | .variable index => exact decide_eq_true (h index (.inl hmem))
    | .function index => exact decide_eq_true (h index (.inr hmem))
    | .hole | .separator | .binary _ | .unary _ | .control _ | .number _ => rfl

end NodeKind

/-! ### Shapes -/

/-- What a written shape is read as. -/
def Shape.reread : Shape → Shape
  | .absent => .absent
  | .node kind left right => .node kind.reread left.reread right.reread

namespace Unfolding

/-- The kinds of the nodes, a node before what hangs on it and left before right. -/
def kinds : Unfolding → List NodeKind
  | .node _ kind left right => kind :: (left.kinds ++ right.kinds)
  | _ => []

/-- Where there is no node, the mark for none is written. -/
theorem symbols_of_shape_eq_absent {u : Unfolding} (h : u.shape = .absent)
    (further : List Exchange.Symbol) :
  u.symbols further = .absent :: further
  := by
  cases u with
  | absent => rfl
  | dangling id => rfl
  | cut id => rfl
  | node id kind left right => cases h

/-- What an unfolding is read as is written in the same way. -/
theorem map_text_symbols {u v : Unfolding} (h : v.shape = u.shape.reread)
    {further others : List Exchange.Symbol}
    (hfurther : others.map (·.text) = further.map (·.text)) :
  (v.symbols others).map (·.text) = (u.symbols further).map (·.text)
  := by
  induction u generalizing v further others with
  | absent | dangling id | cut id =>
    rw [symbols_of_shape_eq_absent h, symbols, List.map_cons, hfurther, List.map_cons]
  | node id kind left right ihl ihr =>
    cases v with
    | absent | dangling id | cut id => cases h
    | node id' kind' left' right' =>
      obtain ⟨rfl, hleft, hright⟩ := Shape.node.inj h
      have hclosing : (Exchange.Symbol.closing :: others).map (·.text)
          = (Exchange.Symbol.closing :: further).map (·.text) := by
        rw [List.map_cons, hfurther, List.map_cons]
      have hpayload : (Exchange.Symbol.number kind.reread.payload).text
          = (Exchange.Symbol.number kind.payload).text := by
        rw [kind.payload_reread]
        apply (Exchange.Symbol.number kind.payload).text_reread
      simp only [symbols, List.map_cons, kind.tag_reread, hpayload,
        ihl hleft (ihr hright hclosing)]

/-- An unfolding without values that are not numbers is read as the same shape. -/
theorem reread_shape {u : Unfolding}
    (h : ∀ value, .number value ∈ u.kinds → ¬ value.isNaN) :
  u.shape.reread = u.shape
  := by
  induction u with
  | absent => rfl
  | dangling id => rfl
  | cut id => rfl
  | node id kind left right ihl ihr =>
    have hkind : kind.reread = kind := by
      cases kind with
      | number value =>
        rw [NodeKind.reread, Binary64.reread_of_not_isNaN (h value List.mem_cons_self)]
      | _ => rfl
    have hleft := ihl fun value hvalue =>
      h value (List.mem_cons_of_mem _ (List.mem_append_left _ hvalue))
    have hright := ihr fun value hvalue =>
      h value (List.mem_cons_of_mem _ (List.mem_append_right _ hvalue))
    rw [shape, Shape.reread, hkind, hleft, hright]

/-- Unfoldings that show the same shape agree. -/
theorem sameShape_of_shows {u v : Unfolding} {s : Shape} (hu : u.Shows s) (hv : v.Shows s) :
  u.sameShape v
  := by
  induction hu generalizing v with
  | absent =>
    cases hv
    rfl
  | node id hleft hright ihl ihr =>
    cases hv with
    | node other hleft' hright' => simp [sameShape, ihl hleft', ihr hright']

end Unfolding

/-! ### The reader -/

namespace Tree

section Reserve

variable (t : Tree) (kind : NodeKind)

/-- Reserving names changes no node. -/
theorem nodes_reserve :
  (t.reserve kind).nodes = t.nodes
  := by
  cases kind <;> rfl

/-- Reserving names does not change the count of nodes. -/
theorem live_reserve :
  (t.reserve kind).live = t.live
  := by
  cases kind <;> rfl

/-- The nodes stay when names are reserved. -/
theorem keeps_reserve :
  t.Keeps (t.reserve kind)
  := .of_nodes_eq (t.nodes_reserve kind)

end Reserve

end Tree

namespace Exchange

variable (stop : Nat)

/-- The tag and the payload of a kind are read, or the reader fails. -/
theorem readKind_eq {kind : NodeKind} {symbols : List Placed} {further : List Symbol}
    (h : symbols.map (·.symbol)
      = .number (.ofInt kind.tag) :: .number kind.payload.reread :: further) :
  (kind.isReadable → ∃ rest, rest.map (·.symbol) = further
      ∧ readKind stop symbols = .ok (kind.reread, rest))
    ∧ (¬ kind.isReadable → ∃ error, readKind stop symbols = .error error)
  := by
  obtain ⟨⟨_, tagSpan⟩, others, rfl, rfl, hothers⟩ := List.map_eq_cons_iff.mp h
  obtain ⟨⟨_, payloadSpan⟩, rest, rfl, rfl, rfl⟩ := List.map_eq_cons_iff.mp hothers
  simp only [readKind, NodeKind.tag?_tag, NodeKind.ofPayload?_payload]
  constructor
  · intro hreadable
    rw [if_pos hreadable]
    exact ⟨rest, rfl, rfl⟩
  · intro hunreadable
    rw [if_neg hunreadable]
    exact ⟨_, rfl⟩

section Steps

variable {t : Tree} {waiting : List Pending} {rest : List Placed} {span : Span} {kind : NodeKind}

/-- The mark for no node completes a missing child. -/
theorem readFrom_absent :
  readFrom stop t waiting .awaiting (⟨.absent, span⟩ :: rest)
    = readFrom stop t waiting (.complete none) rest
  := by
  rw [readFrom]

/-- A node whose kind is read waits for its children, and the names for it are reserved. -/
theorem readFrom_opening {rest' : List Placed} (h : readKind stop rest = .ok (kind, rest')) :
  readFrom stop t waiting .awaiting (⟨.opening, span⟩ :: rest)
    = readFrom stop (t.reserve kind) ({ kind } :: waiting) .awaiting rest'
  := by
  rw [readFrom]
  split
  · rename_i herror
    rw [h] at herror
    cases herror
  · rename_i hok
    rw [h] at hok
    cases hok
    rfl

/-- If no kind can be read, then there is no node. -/
theorem readFrom_opening_error {error : ReadError} (h : readKind stop rest = .error error) :
  readFrom stop t waiting .awaiting (⟨.opening, span⟩ :: rest) = .error error
  := by
  rw [readFrom]
  split
  · rename_i herror
    rw [h] at herror
    cases herror
    rfl
  · rename_i hok
    rw [h] at hok
    cases hok

/-- If no node waits, then what is complete is the whole. -/
theorem readFrom_complete {link : Option NodeId} :
  readFrom stop t [] (.complete link) rest = .ok (link, t, rest)
  := by
  rw [readFrom]

/-- A node that waits for its left child takes what is complete and waits for its right child. -/
theorem readFrom_left {link : Option NodeId} :
  readFrom stop t (⟨kind, none⟩ :: waiting) (.complete link) rest
    = readFrom stop t (⟨kind, some link⟩ :: waiting) .awaiting rest
  := by
  conv_lhs => rw [readFrom]

/-- A node with both children enters the arena when its closing parenthesis is read. -/
theorem readFrom_closing {left link : Option NodeId} :
  readFrom stop t (⟨kind, some left⟩ :: waiting) (.complete link) (⟨.closing, span⟩ :: rest)
    = readFrom stop (t.node kind left link).2 waiting (.complete (some t.size)) rest
  := by
  rw [readFrom]
  rfl

end Steps

/-- The symbols of a node as they are read: the tag is not changed, and the payload may be. -/
theorem map_reread_symbols (id : NodeId) (kind : NodeKind) (left right : Unfolding)
    (further : List Symbol) :
  ((Unfolding.node id kind left right).symbols further).map Symbol.reread
    = .opening :: .number (.ofInt kind.tag) :: .number kind.payload.reread
      :: (left.symbols (right.symbols (.closing :: further))).map Symbol.reread
  := by
  simp only [Unfolding.symbols, List.map_cons, Symbol.reread,
    Binary64.reread_of_not_isNaN (Binary64.not_isNaN_ofInt kind.tag)]

/-- If all kinds of a written unfolding are accepted, then the reader comes to its end with a tree
that shows what was written. -/
theorem readFrom_symbols {u : Unfolding} (hu : ∀ kind ∈ u.kinds, kind.isReadable) {t : Tree}
    {waiting : List Pending} {symbols : List Placed} {further : List Symbol}
    (h : symbols.map (·.symbol) = (u.symbols further).map Symbol.reread) :
  ∃ t' link v rest, t.Keeps t' ∧ t'.Unfolds link v ∧ v.shape = u.shape.reread
    ∧ rest.map (·.symbol) = further.map Symbol.reread
    ∧ readFrom stop t waiting .awaiting symbols = readFrom stop t' waiting (.complete link) rest
  := by
  -- The children are read while their node waits, so what waits is arbitrary.
  induction u generalizing t waiting symbols further with
  | absent | dangling id | cut id =>
    obtain ⟨⟨_, span⟩, rest, rfl, rfl, hrest⟩ := List.map_eq_cons_iff.mp h
    exact ⟨t, none, .absent, rest, .refl t, .absent, rfl, hrest, readFrom_absent stop⟩
  | node id kind left right ihl ihr =>
    obtain ⟨hkind, hchildren⟩ := List.forall_mem_cons.mp hu
    obtain ⟨hleft, hright⟩ := List.forall_mem_append.mp hchildren
    rw [map_reread_symbols] at h
    obtain ⟨⟨_, span⟩, others, rfl, rfl, hothers⟩ := List.map_eq_cons_iff.mp h
    obtain ⟨rest, hrest, hread⟩ := (readKind_eq stop hothers).1 hkind
    rw [readFrom_opening stop hread]
    obtain ⟨t₁, l, v, rest₁, hkeeps₁, hl, hshape₁, hrest₁, heq₁⟩ := ihl hleft hrest
    rw [heq₁, readFrom_left]
    obtain ⟨t₂, r, w, rest₂, hkeeps₂, hr, hshape₂, hrest₂, heq₂⟩ := ihr hright hrest₁
    have hclosing : rest₂.map (·.symbol) = .closing :: further.map Symbol.reread := hrest₂
    obtain ⟨⟨_, span'⟩, rest₃, rfl, rfl, hrest₃⟩ := List.map_eq_cons_iff.mp hclosing
    rw [heq₂, readFrom_closing]
    use (t₂.node kind.reread l r).2, some t₂.size, .node t₂.size kind.reread v w, rest₃
    have hkeeps := (t.keeps_reserve kind.reread).trans (hkeeps₁.trans hkeeps₂)
    use hkeeps.trans (t₂.keeps_node _ _ _)
    use .newNode _ (hl.mono hkeeps₂) hr
    rw [Unfolding.shape, hshape₁, hshape₂]
    use rfl, hrest₃

/-- If some kind of a written unfolding is not accepted, then the reader fails. -/
theorem readFrom_symbols_eq_error {u : Unfolding} (hu : ∃ kind ∈ u.kinds, ¬ kind.isReadable)
    {t : Tree} {waiting : List Pending} {symbols : List Placed} {further : List Symbol}
    (h : symbols.map (·.symbol) = (u.symbols further).map Symbol.reread) :
  ∃ error, readFrom stop t waiting .awaiting symbols = .error error
  := by
  induction u generalizing t waiting symbols further with
  | absent | dangling id | cut id =>
    obtain ⟨kind, hmem, -⟩ := hu
    cases hmem
  | node id kind left right ihl ihr =>
    rw [map_reread_symbols] at h
    obtain ⟨⟨_, span⟩, others, rfl, rfl, hothers⟩ := List.map_eq_cons_iff.mp h
    by_cases hkind : kind.isReadable
    · obtain ⟨rest, hrest, hread⟩ := (readKind_eq stop hothers).1 hkind
      rw [readFrom_opening stop hread]
      by_cases hleft : ∀ kind ∈ left.kinds, kind.isReadable
      · obtain ⟨t₁, l, v, rest₁, -, -, -, hrest₁, heq₁⟩ := readFrom_symbols stop hleft hrest
        rw [heq₁, readFrom_left]
        apply ihr _ hrest₁
        obtain ⟨bad, hmem, hbad⟩ := hu
        rcases List.mem_cons.mp hmem with rfl | hmem
        · cases hbad hkind
        · rcases List.mem_append.mp hmem with hmem | hmem
          · cases hbad (hleft bad hmem)
          · use bad, hmem
      · apply ihl _ hrest
        simpa using hleft
    · obtain ⟨error, herror⟩ := (readKind_eq stop hothers).2 hkind
      use error
      apply readFrom_opening_error stop herror

end Exchange

/-! ### Round trip -/

namespace Tree

/-- A tree with the shape that is read is written in the same way. -/
theorem dump_eq {t t' : Tree} (h : t'.unfolding.shape = t.unfolding.shape.reread) :
  t'.dump = t.dump
  := by
  rw [dump, dump, symbols, symbols, Unfolding.map_text_symbols h rfl]

section Stages

variable {text : String} {placed : List Exchange.Placed}

/-- A text is read as the tree that the reader comes to. -/
theorem read_eq_of_readFrom {link : Option NodeId} {t : Tree}
    (hscan : Exchange.scanFrom 0 text.toList = .ok placed)
    (hread : Exchange.readFrom text.utf8ByteSize {} [] .awaiting placed = .ok (link, t, [])) :
  read text = .ok { t with root := link }
  := by
  rw [read, hscan]
  simp only [Except.mapError, bind, Except.bind, hread]
  rfl

/-- A text is refused if the reader fails. -/
theorem read_eq_error {error : ReadError}
    (hscan : Exchange.scanFrom 0 text.toList = .ok placed)
    (hread : Exchange.readFrom text.utf8ByteSize {} [] .awaiting placed = .error error) :
  read text = .error error
  := by
  rw [read, hscan]
  simp only [Except.mapError, bind, Except.bind, hread]

end Stages

/-- If all kinds of a tree are accepted, then its text is read as a tree that shows what was
written. -/
theorem exists_read_dump {t : Tree} (h : ∀ kind ∈ t.unfolding.kinds, kind.isReadable) :
  ∃ t' v, read t.dump = .ok t' ∧ t'.Unfolds t'.root v ∧ v.shape = t.unfolding.shape.reread
  := by
  obtain ⟨placed, hscan, hplaced⟩ := Exchange.scanFrom_symbols t.symbols 0
  obtain ⟨t', link, v, rest, -, hv, hshape, hrest, hread⟩ :=
    @Exchange.readFrom_symbols t.dump.utf8ByteSize _ h {} [] _ _ hplaced
  obtain rfl := List.map_eq_nil_iff.mp hrest
  rw [Exchange.readFrom_complete] at hread
  use { t' with root := link }, v, read_eq_of_readFrom hscan hread
  use hv.mono (.of_nodes_eq rfl)

/-- If some kind of a tree is not accepted, then its text is not read. -/
theorem read_dump_eq_error {t : Tree} (h : ∃ kind ∈ t.unfolding.kinds, ¬ kind.isReadable) :
  ∃ error, read t.dump = .error error
  := by
  obtain ⟨placed, hscan, hplaced⟩ := Exchange.scanFrom_symbols t.symbols 0
  obtain ⟨error, hread⟩ :=
    @Exchange.readFrom_symbols_eq_error t.dump.utf8ByteSize _ h {} [] _ _ hplaced
  use error
  apply read_eq_error hscan hread

/-- A written tree is read back if and only if no position in it is too large.  What is read is
written in the same way, and it has the same shape unless a value is not a number. -/
theorem read_dump {t : Tree} {u : Unfolding} (h : t.Unfolds t.root u) :
  ((∃ t', read t.dump = .ok t')
      ↔ ∀ index, .variable index ∈ u.kinds ∨ .function index ∈ u.kinds → index ≤ maxSymbolIndex)
    ∧ ∀ t', read t.dump = .ok t' →
        t'.dump = t.dump
          ∧ ((∀ value, .number value ∈ u.kinds → ¬ value.isNaN) → t.sameShape t')
  := by
  obtain rfl := h.unfolding_eq
  rw [← NodeKind.forall_isReadable]
  by_cases hreadable : ∀ kind ∈ t.unfolding.kinds, kind.isReadable
  · obtain ⟨t', v, hread, hv, hshape⟩ := exists_read_dump hreadable
    obtain rfl := hv.unfolding_eq
    use iff_of_true ⟨t', hread⟩ hreadable
    intro t'' hread'
    cases hread.symm.trans hread'
    use dump_eq hshape
    intro hnumbers
    rw [Unfolding.reread_shape hnumbers] at hshape
    apply Unfolding.sameShape_of_shows h.shows
    rw [← hshape]
    apply hv.shows
  · obtain ⟨error, hread⟩ := @read_dump_eq_error t (by simpa using hreadable)
    rw [hread]
    use iff_of_false (by simp) hreadable
    intro t' hread'
    cases hread'

/-- The sum of a leaf and itself, with one node for both operands. -/
def sharedSum (kind : NodeKind) : Tree where
  nodes := #[{ kind }, { kind := .binary (.arithmetic .add), left := some 0, right := some 0 }]
  root := some 1

/-- The sum unfolds to two leaves. -/
theorem unfolds_sharedSum (kind : NodeKind) :
  (sharedSum kind).Unfolds (some 1)
    (.node 1 (.binary (.arithmetic .add)) (.node 0 kind .absent .absent)
      (.node 0 kind .absent .absent))
  := by
  have hleaf : (sharedSum kind).Unfolds (some 0) (.node 0 kind .absent .absent) :=
    @Unfolds.node _ 0 { kind } _ _ rfl .absent .absent
  apply @Unfolds.node _ 1 { kind := .binary (.arithmetic .add), left := some 0, right := some 0 }
  · rfl
  · apply hleaf
  · apply hleaf

/-- One position is the largest that is read back, and the next one is refused. -/
theorem read_dump_sharedSum :
  (∃ t, read (sharedSum (.variable 65536)).dump = .ok t
      ∧ t.dump = (sharedSum (.variable 65536)).dump
      ∧ (sharedSum (.variable 65536)).sameShape t)
    ∧ ¬ ∃ t, read (sharedSum (.function 65537)).dump = .ok t
  := by
  obtain ⟨hread, hsame⟩ := read_dump (unfolds_sharedSum (.variable 65536))
  obtain ⟨hrefused, -⟩ := read_dump (unfolds_sharedSum (.function 65537))
  constructor
  · obtain ⟨t, ht⟩ := hread.mpr (by simp [Unfolding.kinds, maxSymbolIndex])
    obtain ⟨hdump, hshape⟩ := hsame t ht
    use t, ht, hdump
    apply hshape
    simp [Unfolding.kinds]
  · intro hex
    have hle := hrefused.mp hex 65537 (.inr (by simp [Unfolding.kinds]))
    simp [maxSymbolIndex] at hle

end Tree

end StackCompiler
