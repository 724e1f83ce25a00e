import StackCompiler.Exchange.Symbol
import StackCompiler.Tree.Basic

/-!
# Reading trees

A written tree is read from left to right.  Nodes whose children are not complete wait on a stack,
so the depth of a tree is not limited.  A node enters the arena when its closing parenthesis is
read, after all nodes that hang on it.

Names are not part of the format.  When the tag and the payload of a variable or a function are
read, placeholder names are reserved up to its position.
-/

namespace StackCompiler

/-- What the reader was looking for when it gave up. -/
inductive ReadExpected where
  | node
  | tag
  | payload
  | closing
deriving DecidableEq, Repr

/-- What was looked for, as messages show it. -/
def ReadExpected.text : ReadExpected → String
  | node => "`(` or `_`"
  | tag => "a node tag"
  | payload => "a node payload"
  | closing => "`)`"

/-- Why a text is no written tree, and where.  What is found is nothing at the end of the text. -/
inductive ReadError where
  | invalid (span : Span)
  | unexpected (expected : ReadExpected) (found : Option Exchange.Symbol) (span : Span)
  | unknownTag (tag : Binary64) (span : Span)
  | badPayload (tag : Int) (payload : Binary64) (span : Span)
  | trailing (span : Span)
deriving DecidableEq

namespace ReadError

/-- The bytes of the text that the error is about. -/
def span : ReadError → Span
  | invalid span => span
  | unexpected _ _ span => span
  | unknownTag _ span => span
  | badPayload _ _ span => span
  | trailing span => span

/-- The error as messages show it. -/
def message : ReadError → String
  | invalid _ => "unrecognised input"
  | unexpected expected found _ =>
    "expected " ++ expected.text ++ ", found " ++ (found.map (·.shown)).getD "end of input"
  | unknownTag tag _ => "unknown node tag " ++ tag.text
  | badPayload tag payload _ =>
    "payload " ++ payload.text ++ " is not valid for node tag " ++ toString tag
  | trailing _ => "unexpected input after the tree"

end ReadError

/-- Larger positions of variables and functions are refused. -/
def maxSymbolIndex : Nat := Nat.pow 2 16

namespace NodeKind

/-- The tag that a number stands for. -/
def tag? (tag : Binary64) : Option Int :=
  tag.integer?.filter fun tag => -1 ≤ tag && tag ≤ 6

/-- The position in a symbol table that a payload stands for. -/
def symbolIndex? (payload : Binary64) : Option Nat :=
  (payload.integer?.filter fun index : Int => 0 ≤ index && index ≤ (maxSymbolIndex : Int)).map
    Int.toNat

/-- The kind of node with the given tag and payload. -/
def ofPayload? (tag : Int) (payload : Binary64) : Option NodeKind :=
  match tag with
  | -1 => some .hole
  | 0 => if payload.integer? = some Mark.separator.code then some .separator else none
  | 1 => (payload.integer?.bind BinaryOp.ofCode?).map .binary
  | 2 => (payload.integer?.bind UnaryOp.ofCode?).map .unary
  | 3 => (payload.integer?.bind ControlOp.ofCode?).map .control
  | 4 => some (.number payload)
  | 5 => (symbolIndex? payload).map .variable
  | 6 => (symbolIndex? payload).map .function
  | _ => none

end NodeKind

/-- The tree with placeholder names up to the position that a kind of node refers to. -/
def Tree.reserve (t : Tree) : NodeKind → Tree
  | .variable index => { t with vars := t.vars.reserveThrough index "var" }
  | .function index => { t with funcs := t.funcs.reserveThrough index "func" }
  | _ => t

namespace Exchange

/-- The error of a symbol, or of the end of the text, where something else was looked for. -/
def unexpected (stop : Nat) (expected : ReadExpected) : List Placed → ReadError
  | placed :: _ => .unexpected expected (some placed.symbol) placed.span
  | [] => .unexpected expected none ⟨stop, stop⟩

/-- Reads the tag and the payload of a node from symbols of a text that ends at `stop`. -/
def readKind (stop : Nat) (symbols : List Placed) : Except ReadError (NodeKind × List Placed) :=
  match symbols with
  | ⟨.number tag, tagSpan⟩ :: ⟨.number payload, payloadSpan⟩ :: rest =>
    match NodeKind.tag? tag with
    | none => .error (.unknownTag tag tagSpan)
    | some tag =>
      match NodeKind.ofPayload? tag payload with
      | none => .error (.badPayload tag payload payloadSpan)
      | some kind => .ok (kind, rest)
  | ⟨.number _, _⟩ :: rest => .error (unexpected stop .payload rest)
  | _ => .error (unexpected stop .tag symbols)

theorem length_lt_of_readKind {stop : Nat} {symbols rest : List Placed} {kind : NodeKind}
    (h : readKind stop symbols = .ok (kind, rest)) :
  rest.length < symbols.length
  := by
  unfold readKind at h
  split at h
  · split at h
    · cases h
    · split at h
      · cases h
      · cases h
        simp only [List.length_cons]
        omega
  · cases h
  · cases h

/-- A node that waits for its children, with the left one if that is complete. -/
structure Pending where
  kind : NodeKind
  left : Option (Option NodeId) := none

/-- Whether a node or the completion of one comes next. -/
inductive Focus where
  | awaiting
  | complete (link : Option NodeId)

/-- Reads until no node waits any more, from symbols of a text that ends at `stop`.  The result is
the link to the topmost node, the tree with all nodes, and the symbols that are left. -/
def readFrom (stop : Nat) (t : Tree) (waiting : List Pending) (focus : Focus)
    (symbols : List Placed) : Except ReadError (Option NodeId × Tree × List Placed) :=
  match focus with
  | .awaiting =>
    match symbols with
    | ⟨.absent, _⟩ :: rest => readFrom stop t waiting (.complete none) rest
    | ⟨.opening, _⟩ :: rest =>
      match _h : readKind stop rest with
      | .error error => .error error
      | .ok (kind, rest) => readFrom stop (t.reserve kind) ({ kind } :: waiting) .awaiting rest
    | _ => .error (unexpected stop .node symbols)
  | .complete link =>
    match waiting with
    | [] => .ok (link, t, symbols)
    | ⟨kind, none⟩ :: waiting =>
      readFrom stop t (⟨kind, some link⟩ :: waiting) .awaiting symbols
    | ⟨kind, some left⟩ :: waiting =>
      match symbols with
      | ⟨.closing, _⟩ :: rest =>
        let (id, t) := t.node kind left link
        readFrom stop t waiting (.complete (some id)) rest
      | _ => .error (unexpected stop .closing symbols)
termination_by 2 * symbols.length + match focus with
  | .awaiting => 0
  | .complete _ => 1
decreasing_by
  · simp only [List.length_cons]
    omega
  · have hrest := length_lt_of_readKind _h
    simp only [List.length_cons]
    omega
  · omega
  · simp only [List.length_cons]
    omega

end Exchange

/-- The tree that a text writes. -/
def Tree.read (text : String) : Except ReadError Tree := do
  let symbols ← (Exchange.scanFrom 0 text.toList).mapError .invalid
  let (root, t, rest) ← Exchange.readFrom text.utf8ByteSize {} [] .awaiting symbols
  match rest with
  | placed :: _ => throw (.trailing placed.span)
  | [] => return { t with root }

end StackCompiler
