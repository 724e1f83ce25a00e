import Mathlib.Data.List.Forall2
import StackCompiler.Proofs.Assembly.Forms

/-!
# What is emitted for a tree

Which functions and which call nodes of a tree have code, and the form of that code.  Functions have
code if they stand along the right links from the root, and call nodes if they stand in the body of
such a function; nothing is emitted for the second arm of a loop.
-/

namespace StackCompiler

/-! ### Calls and functions with code -/

/-- A call node: its position, the function it calls, its chain of arguments, and whether it stands
where a value is wanted. -/
structure CallNode where
  id : NodeId
  index : Nat
  arguments : Unfolding
  asValue : Bool
deriving DecidableEq

namespace Unfolding

mutual

/-- The call nodes in the code of a value or of a statement, in the order of their call
instructions. -/
def callNodes : Unfolding → (asValue : Bool) → List CallNode
  | .node id kind left right, asValue =>
    match kind with
    | .binary _ => left.callNodes true ++ right.callNodes true
    | .unary _ => right.callNodes true
    | .function index =>
      match left with
      | .absent => right.itemCallNodes true ++ [⟨id, index, right, asValue⟩]
      | _ => []
    | .control op =>
      match right with
      | .node _ _ first second =>
        left.callNodes true ++ (first.itemCallNodes false
          ++ match op with
            | .branch => second.itemCallNodes false
            | .loop => [])
      | _ => []
    | _ => []
  | _, _ => []

/-- The call nodes in the code of the items of a chain, which are arguments or statements. -/
def itemCallNodes : Unfolding → (asValue : Bool) → List CallNode
  | .node _ _ item next, asValue => item.callNodes asValue ++ next.itemCallNodes asValue
  | _, _ => []

end

/-- The functions that are defined along the right links, with their indices, bodies and
parameters. -/
def functions : Unfolding → List (Nat × Unfolding × Unfolding)
  | .node _ (.function index) (.node _ _ body parameters) next =>
    (index, body, parameters) :: next.functions
  | _ => []

/-- The indices and numbers of parameters of the functions along the right links. -/
def signatures (u : Unfolding) : List (Nat × Nat) :=
  u.functions.map fun (index, _, parameters) => (index, parameters.items.length)

/-- The call nodes in the bodies of the functions along the right links. -/
def bodyCallNodes (u : Unfolding) : List CallNode :=
  u.functions.flatMap fun (_, body, _) => body.itemCallNodes false

/-- The call nodes of a program, whose first function is the entry and comes last in its code. -/
def programCallNodes : Unfolding → List CallNode
  | .node _ (.function _) (.node _ _ body _) next => next.bodyCallNodes ++ body.itemCallNodes false
  | _ => []

/-- The calls of a program, with their functions and arguments, in the order of the call
instructions. -/
def programCalls (u : Unfolding) : List (Nat × Unfolding) :=
  u.programCallNodes.map fun node => (node.index, node.arguments)

/-- The items of a chain that are not empty. -/
def filledItems (u : Unfolding) : List Unfolding :=
  u.items.filter (· ≠ .absent)

end Unfolding

/-! ### Call nodes as parts -/

/-- One unfolding is a part of another one. -/
inductive Unfolding.Part (v : Unfolding) : Unfolding → Prop where
  | refl : Part v v
  | left (id : NodeId) (kind : NodeKind) {left : Unfolding} (right : Unfolding)
      (h : Part v left) : Part v (.node id kind left right)
  | right (id : NodeId) (kind : NodeKind) (left : Unfolding) {right : Unfolding}
      (h : Part v right) : Part v (.node id kind left right)

/-- What is seen of a call node. -/
def CallNode.unfolding (node : CallNode) : Unfolding :=
  .node node.id (.function node.index) .absent node.arguments

namespace Unfolding

variable {node : CallNode}

mutual

/-- The call nodes of an unfolding are parts of it. -/
theorem part_of_mem_callNodes :
  ∀ (u : Unfolding) {asValue : Bool}, node ∈ u.callNodes asValue → Part node.unfolding u
  | .absent, _, h | .dangling _, _, h | .cut _, _, h => by cases h
  | .node id kind left right, asValue, h => by
      cases kind with
      | binary op =>
        rcases List.mem_append.mp h with h | h
        · exact (part_of_mem_callNodes left h).left ..
        · exact (part_of_mem_callNodes right h).right ..
      | unary op => exact (part_of_mem_callNodes right h).right ..
      | function index =>
        cases left with
        | absent =>
          rcases List.mem_append.mp h with h | h
          · exact (part_of_mem_itemCallNodes right h).right ..
          · obtain rfl := List.mem_singleton.mp h
            exact .refl
        | dangling _ | cut _ | node _ _ _ _ => cases h
      | control op =>
        cases right with
        | absent | dangling _ | cut _ => cases h
        | node arms kind first second =>
          rcases List.mem_append.mp h with h | h
          · exact (part_of_mem_callNodes left h).left ..
          rcases List.mem_append.mp h with h | h
          · exact ((part_of_mem_itemCallNodes first h).left ..).right ..
          · cases op with
            | branch => exact ((part_of_mem_itemCallNodes second h).right ..).right ..
            | loop => cases h
      | number _ | «variable» _ | hole | separator => cases h

/-- The call nodes of the items of a chain are parts of the chain. -/
theorem part_of_mem_itemCallNodes :
  ∀ (u : Unfolding) {asValue : Bool}, node ∈ u.itemCallNodes asValue → Part node.unfolding u
  | .absent, _, h | .dangling _, _, h | .cut _, _, h => by cases h
  | .node id kind item next, asValue, h => by
      rcases List.mem_append.mp h with h | h
      · exact (part_of_mem_callNodes item h).left ..
      · exact (part_of_mem_itemCallNodes next h).right ..

end

/-- The call nodes of the functions of a program are parts of the program. -/
theorem part_of_mem_bodyCallNodes {u : Unfolding} (h : node ∈ u.bodyCallNodes) :
  Part node.unfolding u
  := by
  unfold bodyCallNodes at h
  fun_induction functions u with
  | case1 id index other kind body parameters next ih =>
    rcases List.mem_append.mp h with h | h
    · exact ((part_of_mem_itemCallNodes body h).left ..).left ..
    · exact (ih h).right ..
  | case2 u hu => cases h

/-- Every call node of a program is a part of it. -/
theorem part_of_mem_programCallNodes {u : Unfolding} (h : node ∈ u.programCallNodes) :
  Part node.unfolding u
  := by
  unfold programCallNodes at h
  split at h
  · rcases List.mem_append.mp h with h | h
    · exact (part_of_mem_bodyCallNodes h).right ..
    · exact ((part_of_mem_itemCallNodes _ h).left ..).left ..
  · cases h

end Unfolding

/-! ### The form of the code -/

namespace Lower

/-- The code of the arguments of a call: that of each item but the empty ones. -/
def ArgumentValues (entry : Nat) (arguments : Unfolding) (values : List (List Line)) : Prop :=
  List.Forall₂ (fun item value => ∃ parent, expression entry parent item = .ok value)
    arguments.filledItems values

/-- The code of a call of a function with the given arguments. -/
structure IsCall (entry : Nat) (call : Nat × Unfolding) (code : CallCode) : Prop where
  index : code.index = call.1
  saved : code.saved = call.2.mentioned
  values : ArgumentValues entry call.2 code.values

/-- The code of a call node. -/
structure IsCallOf (entry : Nat) (node : CallNode) (code : CallCode) : Prop where
  isCall : IsCall entry (node.index, node.arguments) code
  asValue : code.asValue = node.asValue

variable {entry : Nat}

/-- Only a variable has a slot. -/
theorem slot_eq_ok {parent : NodeId} {u : Unfolding} {index : Nat} (h : slot parent u = .ok index) :
  ∃ id left right, u = .node id (.variable index) left right
  := by
  cases u with
  | absent | dangling id | cut id => cases h
  | node id kind left right =>
    cases kind <;> cases h
    exact ⟨id, left, right, rfl⟩

mutual

/-- What is emitted for a value computes a value, and its calls are those of its call nodes. -/
theorem expression_form :
  ∀ (u : Unfolding) {parent : NodeId} {code : List Line}, expression entry parent u = .ok code →
    ∃ calls, ValueCode entry calls code ∧ List.Forall₂ (IsCallOf entry) (u.callNodes true) calls
  | .absent, _, _, h => by cases h
  | .dangling _, _, _, h => by cases h
  | .cut _, _, _, h => by cases h
  | .node id kind left right, parent, code, h => by
      cases kind with
      | number value =>
        cases h
        exact ⟨[], .push value, .nil⟩
      | «variable» index =>
        cases h
        exact ⟨[], .load index, .nil⟩
      | binary op =>
        cases op with
        | assign => cases h
        | arithmetic op =>
          obtain ⟨first, hfirst, h⟩ := Parse.bind_eq_ok.mp h
          obtain ⟨second, hsecond, h⟩ := Parse.bind_eq_ok.mp h
          cases h
          obtain ⟨calls, hform, hcalls⟩ := expression_form left hfirst
          obtain ⟨calls', hform', hcalls'⟩ := expression_form right hsecond
          exact ⟨_, .arithmetic op hform hform', List.rel_append hcalls hcalls'⟩
        | comparison op =>
          obtain ⟨first, hfirst, h⟩ := Parse.bind_eq_ok.mp h
          obtain ⟨second, hsecond, h⟩ := Parse.bind_eq_ok.mp h
          cases h
          obtain ⟨calls, hform, hcalls⟩ := expression_form left hfirst
          obtain ⟨calls', hform', hcalls'⟩ := expression_form right hsecond
          exact ⟨_, .comparison op hform hform', List.rel_append hcalls hcalls'⟩
      | unary op =>
        cases op with
        | math op =>
          obtain ⟨operand, hoperand, h⟩ := Parse.bind_eq_ok.mp h
          cases h
          obtain ⟨calls, hform, hcalls⟩ := expression_form right hoperand
          exact ⟨calls, .math op hform, hcalls⟩
        | input =>
          obtain ⟨index, hslot, h⟩ := Parse.bind_eq_ok.mp h
          cases h
          obtain ⟨other, l, r, rfl⟩ := slot_eq_ok hslot
          exact ⟨[], .input index, .nil⟩
        | output op => cases h
        | ret => cases h
      | function index =>
        cases left with
        | absent =>
          obtain ⟨arguments, harguments, h⟩ := Parse.bind_eq_ok.mp h
          cases h
          obtain ⟨list, rfl, hforms, hvalues, hcalls⟩ := arguments_form right harguments
          exact ⟨_, .call index _ hforms,
            List.rel_append hcalls (.cons ⟨⟨rfl, rfl, hvalues⟩, rfl⟩ .nil)⟩
        | dangling _ | cut _ | node _ _ _ _ => cases h
      | hole => cases h
      | separator => cases h
      | control op => cases h

/-- The code of arguments is made of one piece for each argument that is not empty, in their order,
and the calls in it are the call nodes of the arguments. -/
theorem arguments_form :
  ∀ (u : Unfolding) {code : List Line}, arguments entry u = .ok code →
    ∃ list : List (List CallCode × List Line), code = (list.map (·.2)).flatten
      ∧ (∀ argument ∈ list, ValueCode entry argument.1 argument.2)
      ∧ ArgumentValues entry u (list.map (·.2))
      ∧ List.Forall₂ (IsCallOf entry) (u.itemCallNodes true) (list.map (·.1)).flatten
  | .absent, _, h | .dangling _, _, h | .cut _, _, h => by
      cases h
      exact ⟨[], rfl, nofun, .nil, .nil⟩
  | .node id kind .absent next, code, h => by
      obtain ⟨first, hfirst, h⟩ := Parse.bind_eq_ok.mp h
      obtain ⟨others, hothers, h⟩ := Parse.bind_eq_ok.mp h
      cases hfirst
      cases h
      apply arguments_form next hothers
  | .node id kind (.dangling other) next, code, h => by cases h
  | .node id kind (.cut other) next, code, h => by cases h
  | .node id kind (.node other kind' l r) next, code, h => by
      obtain ⟨first, hfirst, h⟩ := Parse.bind_eq_ok.mp h
      obtain ⟨others, hothers, h⟩ := Parse.bind_eq_ok.mp h
      cases h
      obtain ⟨calls, hform, hcalls⟩ := expression_form (.node other kind' l r) hfirst
      obtain ⟨list, rfl, hforms, hvalues, hcalls'⟩ := arguments_form next hothers
      exact ⟨(calls, first) :: list, rfl, List.forall_mem_cons.mpr ⟨hform, hforms⟩,
        .cons ⟨id, hfirst⟩ hvalues, List.rel_append hcalls hcalls'⟩

end

/-- A branch or a loop that has code has a condition that is a value. -/
theorem test_of_control_eq_ok {op : ControlOp} {id arms : NodeId} {kind : NodeKind}
    {left first second : Unfolding} {start stop : Numbering} {code : List Line}
    (h : statement entry (.node id (.control op) left (.node arms kind first second)) start
      = .ok (code, stop)) :
  ∃ test, expression entry id left = .ok test
    ∧ (match op with
      | .branch => do
        let (consequence, numbering) ←
          statements entry first { start with branches := start.branches + 1 }
        let (alternative, numbering) ← statements entry second numbering
        return (branch start.branches test consequence alternative, numbering)
      | .loop => do
        let (body, numbering) ← statements entry first { start with loops := start.loops + 1 }
        return (loop start.loops test body, numbering)) = .ok (code, stop)
  := by
  cases left with
  | absent => cases h
  | dangling other | cut other =>
    simp only [statement] at h
    split at h
    · cases h
    · cases op <;> cases h
  | node other kind' l r =>
    simp only [statement] at h
    split at h
    · cases h
    · cases op <;> apply Parse.bind_eq_ok.mp h

mutual

/-- What is emitted for a statement has the form of statements, and its calls are those of its call
nodes. -/
theorem statement_form :
  ∀ (u : Unfolding) {start stop : Numbering} {code : List Line},
    statement entry u start = .ok (code, stop) →
    ∃ calls, BodyCode entry start calls code stop
      ∧ List.Forall₂ (IsCallOf entry) (u.callNodes false) calls
  | .absent, _, _, _, h => by
      cases h
      exact ⟨[], .nil _, .nil⟩
  | .dangling _, _, _, _, h => by cases h
  | .cut _, _, _, _, h => by cases h
  | .node id kind left right, start, stop, code, h => by
      cases kind with
      | binary op =>
        cases op with
        | assign =>
          obtain ⟨value, hvalue, h⟩ := Parse.bind_eq_ok.mp h
          obtain ⟨index, hslot, h⟩ := Parse.bind_eq_ok.mp h
          cases h
          obtain ⟨other, l, r, rfl⟩ := slot_eq_ok hslot
          obtain ⟨calls, hform, hcalls⟩ := expression_form right hvalue
          exact ⟨calls, .assign _ index hform, hcalls⟩
        | arithmetic op => cases h
        | comparison op => cases h
      | unary op =>
        cases op with
        | math op => cases h
        | input =>
          obtain ⟨index, hslot, h⟩ := Parse.bind_eq_ok.mp h
          cases h
          obtain ⟨other, l, r, rfl⟩ := slot_eq_ok hslot
          exact ⟨[], .input _ index, .nil⟩
        | output op =>
          obtain ⟨value, hvalue, h⟩ := Parse.bind_eq_ok.mp h
          cases h
          obtain ⟨calls, hform, hcalls⟩ := expression_form right hvalue
          exact ⟨calls, .output _ op hform, hcalls⟩
        | ret =>
          obtain ⟨value, hvalue, h⟩ := Parse.bind_eq_ok.mp h
          cases h
          obtain ⟨calls, hform, hcalls⟩ := expression_form right hvalue
          exact ⟨calls, .ret _ hform, hcalls⟩
      | function index =>
        cases left with
        | absent =>
          obtain ⟨arguments, harguments, h⟩ := Parse.bind_eq_ok.mp h
          cases h
          obtain ⟨list, rfl, hforms, hvalues, hcalls⟩ := arguments_form right harguments
          exact ⟨_, .call _ index _ hforms,
            List.rel_append hcalls (.cons ⟨⟨rfl, rfl, hvalues⟩, rfl⟩ .nil)⟩
        | dangling _ | cut _ | node _ _ _ _ => cases h
      | control op =>
        cases right with
        | absent | dangling _ | cut _ => cases left <;> cases h
        | node arms kind first second =>
          obtain ⟨test, htest, h⟩ := test_of_control_eq_ok h
          obtain ⟨calls, hform, hcalls⟩ := expression_form left htest
          cases op with
          | branch =>
            obtain ⟨⟨consequence, middle⟩, hconsequence, h⟩ := Parse.bind_eq_ok.mp h
            obtain ⟨⟨alternative, _⟩, halternative, h⟩ := Parse.bind_eq_ok.mp h
            cases h
            obtain ⟨calls₁, hform₁, hcalls₁⟩ := statements_form first hconsequence
            obtain ⟨calls₂, hform₂, hcalls₂⟩ := statements_form second halternative
            exact ⟨_, .branch hform hform₁ hform₂,
              List.rel_append hcalls (List.rel_append hcalls₁ hcalls₂)⟩
          | loop =>
            obtain ⟨⟨body, _⟩, hbody, h⟩ := Parse.bind_eq_ok.mp h
            cases h
            obtain ⟨calls₁, hform₁, hcalls₁⟩ := statements_form first hbody
            use calls ++ calls₁, .loop hform hform₁
            rw [Unfolding.callNodes, List.append_nil]
            apply List.rel_append hcalls hcalls₁
      | number value => cases h
      | «variable» index => cases h
      | hole => cases h
      | separator => cases h

/-- The code of a body has the form of statements, and the calls in it are the call nodes of its
items. -/
theorem statements_form :
  ∀ (u : Unfolding) {start stop : Numbering} {code : List Line},
    statements entry u start = .ok (code, stop) →
    ∃ calls, BodyCode entry start calls code stop
      ∧ List.Forall₂ (IsCallOf entry) (u.itemCallNodes false) calls
  | .absent, _, _, _, h | .dangling _, _, _, _, h | .cut _, _, _, _, h => by
      cases h
      exact ⟨[], .nil _, .nil⟩
  | .node id kind item next, start, stop, code, h => by
      obtain ⟨⟨first, middle⟩, hfirst, h⟩ := Parse.bind_eq_ok.mp h
      obtain ⟨⟨others, _⟩, hothers, h⟩ := Parse.bind_eq_ok.mp h
      cases h
      obtain ⟨calls, hform, hcalls⟩ := statement_form item hfirst
      obtain ⟨calls', hform', hcalls'⟩ := statements_form next hothers
      exact ⟨_, .append hform hform', List.rel_append hcalls hcalls'⟩

end

/-- There is one slot for each parameter. -/
theorem length_of_slots_eq_ok {parent : NodeId} {u : Unfolding} {list : List Nat}
    (h : slots parent u = .ok list) :
  list.length = u.items.length
  := by
  induction u generalizing list with
  | absent | dangling id | cut id =>
    cases h
    rfl
  | node id kind item next ihl ihr =>
    obtain ⟨first, hfirst, h⟩ := Parse.bind_eq_ok.mp h
    obtain ⟨others, hothers, h⟩ := Parse.bind_eq_ok.mp h
    cases h
    rw [List.length_cons, ihr hothers, Unfolding.items, List.length_cons]

/-- The code of statements that end with a return does so too. -/
theorem getLast?_of_endsWithReturn {u : Unfolding} {start stop : Numbering} {code : List Line}
    (h : statements entry u start = .ok (code, stop)) (hends : endsWithReturn u) :
  code.getLast? = some (.instruction .ret)
  := by
  induction u generalizing start code with
  | absent | dangling id | cut id => cases hends
  | node id kind item next ihl ihr =>
    obtain ⟨⟨first, middle⟩, hfirst, h⟩ := Parse.bind_eq_ok.mp h
    obtain ⟨⟨others, _⟩, hothers, h⟩ := Parse.bind_eq_ok.mp h
    cases h
    cases next with
    | node id' kind' item' next' =>
      rw [List.getLast?_append, ihr hothers, Option.some_or]
      simpa only [endsWithReturn, Unfolding.items, List.getLast?_cons_cons] using hends
    | _ =>
      cases hothers
      simp only [endsWithReturn, Unfolding.items, List.getLast?_singleton] at hends
      split at hends
      · rename_i heq
        obtain rfl := Option.some.inj heq
        obtain ⟨value, -, h⟩ := Parse.bind_eq_ok.mp hfirst
        cases h
        simp
      · cases hends

/-- A function has a header that holds its body and its parameters. -/
theorem header_eq_ok {u body parameters : Unfolding} {index : Nat}
    (h : header u = .ok (index, body, parameters)) :
  ∃ id id' kind next, u = .node id (.function index) (.node id' kind body parameters) next
  := by
  cases u with
  | absent | dangling id | cut id => cases h
  | node id kind left next =>
    cases kind with
    | function index =>
      cases left with
      | absent | dangling id' | cut id' => cases h
      | node id' kind' body parameters =>
        cases h
        exact ⟨id, id', kind', next, rfl⟩
    | _ => cases h

/-- What is emitted for the functions along the right links has the form of functions, and its calls
are those of their bodies. -/
theorem definitions_form {u : Unfolding} {start stop : Numbering} {code : List Line}
    (h : definitions entry u start = .ok (code, stop)) :
  ∃ calls, FunctionsCode entry u.signatures start calls code stop
    ∧ List.Forall₂ (IsCallOf entry) u.bodyCallNodes calls
  := by
  induction u generalizing start code with
  | absent | dangling id | cut id =>
    cases h
    exact ⟨[], .nil _, .nil⟩
  | node id kind left next ihl ihr =>
    obtain ⟨⟨first, middle⟩, hfirst, h⟩ := Parse.bind_eq_ok.mp h
    obtain ⟨⟨others, _⟩, hothers, h⟩ := Parse.bind_eq_ok.mp h
    cases h
    obtain ⟨⟨index, body, parameters⟩, hheader, hfirst⟩ := Parse.bind_eq_ok.mp hfirst
    obtain ⟨list, hslots, hfirst⟩ := Parse.bind_eq_ok.mp hfirst
    obtain ⟨⟨lines, _⟩, hlines, hfirst⟩ := Parse.bind_eq_ok.mp hfirst
    cases hfirst
    obtain ⟨_, id', kind', _, heq⟩ := header_eq_ok hheader
    cases heq
    obtain ⟨calls, hform, hcalls⟩ := statements_form body hlines
    obtain ⟨calls', hform', hcalls'⟩ := ihr hothers
    have hsignatures : (Unfolding.node id (.function index) (.node id' kind' body parameters)
        next).signatures = (index, list.length) :: next.signatures := by
      rw [length_of_slots_eq_ok hslots]
      rfl
    rw [List.append_assoc (_ :: _) lines, hsignatures]
    refine ⟨calls ++ calls', .cons index list hform ?_ ?_ hform', List.rel_append hcalls hcalls'⟩
    · split <;> simp
    · split
      · rename_i hends
        rw [List.append_nil]
        apply getLast?_of_endsWithReturn hlines hends
      · simp

/-- What is emitted for a whole program.  Its first function is the entry. -/
theorem program_form {u : Unfolding} {start stop : Numbering} {code : List Line}
    (h : program u start = .ok (code, stop)) :
  ∃ entry body parameters calls, u.functions = (entry, body, parameters) :: (others u).functions
    ∧ ProgramCode entry (others u).signatures start calls code stop
    ∧ List.Forall₂ (IsCallOf entry) u.programCallNodes calls
  := by
  obtain ⟨⟨entry, body, parameters⟩, hheader, h⟩ := Parse.bind_eq_ok.mp h
  obtain ⟨⟨functions, middle⟩, hfunctions, h⟩ := Parse.bind_eq_ok.mp h
  obtain ⟨⟨main, _⟩, hmain, h⟩ := Parse.bind_eq_ok.mp h
  cases h
  obtain ⟨id, id', kind, next, rfl⟩ := header_eq_ok hheader
  obtain ⟨calls, hform, hcalls⟩ := definitions_form hfunctions
  obtain ⟨calls', hform', hcalls'⟩ := statements_form body hmain
  exact ⟨entry, body, parameters, calls ++ calls', rfl, .mk hform hform',
    List.rel_append hcalls hcalls'⟩

/-- Items of related lists at the same place are related. -/
theorem getElem?_of_forall₂ {α β : Type} {R : α → β → Prop} {list : List α} {list' : List β}
    (h : List.Forall₂ R list list') {place : Nat} {b : β} (hb : list'[place]? = some b) :
  ∃ a, list[place]? = some a ∧ R a b
  := by
  induction h generalizing place with
  | nil => cases hb
  | @cons a b' list list' hab h ih =>
    cases place with
    | zero =>
      cases hb
      exact ⟨a, rfl, hab⟩
    | succ place => apply ih hb

/-- The calls of a program have the code of its call nodes. -/
theorem isCall_programCalls {u : Unfolding} {calls : List CallCode}
    (h : List.Forall₂ (IsCallOf entry) u.programCallNodes calls) :
  List.Forall₂ (IsCall entry) u.programCalls calls
  := by
  rw [Unfolding.programCalls, List.forall₂_map_left_iff]
  exact h.imp fun _ _ hcall => hcall.isCall

/-- The labels that calls refer to. -/
theorem map_target_eq {nodes : List CallNode} {codes : List CallCode}
    (h : List.Forall₂ (IsCallOf entry) nodes codes) :
  codes.map (fun code => target entry code.index) = nodes.map (fun node => target entry node.index)
  := by
  induction h with
  | nil => rfl
  | cons hcall h ih => rw [List.map_cons, List.map_cons, hcall.isCall.index, ih]

/-- The labels that the calls of a program refer to. -/
theorem map_target_programCalls {u : Unfolding} {calls : List CallCode}
    (h : List.Forall₂ (IsCallOf entry) u.programCallNodes calls) :
  calls.map (fun code => target entry code.index)
    = u.programCalls.map fun call => target entry call.1
  := by
  rw [map_target_eq h, Unfolding.programCalls, List.map_map]
  rfl

end Lower

end StackCompiler
