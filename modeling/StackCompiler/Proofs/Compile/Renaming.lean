import StackCompiler.Proofs.Program.Renaming

/-!
# Compilation does not depend on names

The nodes of a tree refer to names by their positions in the symbol tables.  A program with other
names is laid out as the same nodes, with the other names in the tables.  Verification looks only at
the sizes of the tables, and the generated code not even at these.
-/

namespace StackCompiler

/-- The tree with the names in its tables replaced. -/
def Tree.rename (r : String → String) (t : Tree) : Tree :=
  { t with vars := t.vars.rename r, funcs := t.funcs.rename r }

/-! ### Layout -/

namespace Tree

variable (r : String → String)

/-- Adoption does not look at the tables. -/
theorem adopt_rename (t : Tree) (parent child : NodeId) :
  (t.rename r).adopt parent child = (t.adopt parent child).rename r
  := by
  have hget : (t.rename r).get? child = t.get? child := rfl
  rw [adopt, hget, adopt]
  cases t.get? child <;> rfl

/-- The adoption of several children does not look at the tables. -/
theorem foldl_adopt_rename (t : Tree) (parent : NodeId) (children : List NodeId) :
  children.foldl (fun t child => t.adopt parent child) (t.rename r)
    = (children.foldl (fun t child => t.adopt parent child) t).rename r
  := by
  induction children generalizing t with
  | nil => rfl
  | cons child children ih => rw [List.foldl_cons, List.foldl_cons, adopt_rename, ih]

/-- A new node of a renamed tree has the same position and changes the same nodes. -/
theorem node_rename (t : Tree) (kind : NodeKind) (left right : Option NodeId) :
  (t.rename r).node kind left right
    = ((t.node kind left right).1, (t.node kind left right).2.rename r)
  := by
  exact congrArg (t.size, ·) (foldl_adopt_rename r
    { t with nodes := t.nodes.push { kind, left, right }, live := t.live + 1 } t.size
    (left.toList ++ right.toList))

/-- A new chain of a renamed tree has the same head and changes the same nodes. -/
theorem chain_rename (t : Tree) (items : List NodeId) :
  (t.rename r).chain items = ((t.chain items).1, (t.chain items).2.rename r)
  := by
  induction items with
  | nil => rfl
  | cons item items ih =>
    have hcons (t : Tree) :
        t.chain (item :: items)
          = (some ((t.chain items).2.node .separator (some item) (t.chain items).1).1,
              ((t.chain items).2.node .separator (some item) (t.chain items).1).2) := rfl
    rw [hcons, hcons, ih, node_rename]

end Tree

namespace Layout

/-- Two ways to add to a tree do the same, apart from the names in the tables. -/
def Commutes (r : String → String) {α : Type} (add add' : StateM Tree α) : Prop :=
  ∀ t, add' (t.rename r) = ((add t).1, (add t).2.rename r)

namespace Commutes

variable {r : String → String} {α β : Type}

/-- Adding nothing commutes with renaming. -/
theorem pure (a : α) :
  Commutes r (Pure.pure a) (Pure.pure a)
  := fun _ => rfl

/-- Adding one thing after another commutes with renaming if both additions do. -/
theorem bind {add add' : StateM Tree α} {next next' : α → StateM Tree β}
    (h : Commutes r add add') (hnext : ∀ a, Commutes r (next a) (next' a)) :
  Commutes r (add >>= next) (add' >>= next')
  := by
  intro t
  change next' (add' (t.rename r)).1 (add' (t.rename r)).2 = _
  rw [h t]
  apply hnext

end Commutes

variable {r : String → String}

/-- Nodes hold no names, so the same node is added to a renamed tree. -/
theorem addNode_commutes (kind : NodeKind) (left right : Option NodeId) :
  Commutes r (addNode kind left right) (addNode kind left right)
  := fun t => t.node_rename r kind left right

/-- Chains hold no names, so the same chain is added to a renamed tree. -/
theorem addChain_commutes (items : List NodeId) :
  Commutes r (addChain items) (addChain items)
  := fun t => t.chain_rename r items

section Injective

variable (hr : Function.Injective r)

include hr

/-- A variable with its name replaced is added to a renamed tree as a node with the same position.
-/
theorem addVariable_commutes (name : String) :
  Commutes r (addVariable name) (addVariable (r name))
  := by
  intro t
  have hintern := t.vars.intern_rename hr name
  change ({ t.rename r with vars := ((t.vars.rename r).intern (r name)).2 } : Tree).node
    (.variable ((t.vars.rename r).intern (r name)).1) none none = _
  rw [hintern]
  exact Tree.node_rename r { t with vars := (t.vars.intern name).2 }
    (.variable (t.vars.intern name).1) none none

/-- A replaced function name has the same position in a renamed tree. -/
theorem functionIndex_commutes (name : String) :
  Commutes r (functionIndex name) (functionIndex (r name))
  := by
  intro t
  have hintern := t.funcs.intern_rename hr name
  change (((t.funcs.rename r).intern (r name)).1,
    { t.rename r with funcs := ((t.funcs.rename r).intern (r name)).2 }) = _
  rw [hintern]
  rfl

/-- Variables with their names replaced are added as the same nodes. -/
theorem addVariables_commutes (names : List String) :
  Commutes r (addVariables names) (addVariables (names.map r))
  := by
  induction names with
  | nil => apply Commutes.pure
  | cons name names ih =>
    apply (addVariable_commutes hr name).bind
    intro id
    apply ih.bind
    intro ids
    apply Commutes.pure

end Injective

mutual

/-- A renamed expression is added as the same nodes. -/
theorem addExpr_commutes (hr : Function.Injective r) :
  ∀ (e : Expr), Commutes r (addExpr e) (addExpr (e.rename r))
  | .number value => addNode_commutes (.number value) none none
  | .variable name => addVariable_commutes hr name
  | .input target => (addVariable_commutes hr target).bind fun _ => addNode_commutes _ _ _
  | .call function arguments => by
      apply (functionIndex_commutes hr function).bind
      intro index
      apply (addExprs_commutes hr arguments).bind
      intro items
      apply (addChain_commutes items).bind
      intro head
      apply addNode_commutes
  | .math op operand => (addExpr_commutes hr operand).bind fun _ => addNode_commutes _ _ _
  | .arithmetic op left right => by
      apply (addExpr_commutes hr left).bind
      intro left
      apply (addExpr_commutes hr right).bind
      intro right
      apply addNode_commutes
  | .comparison op left right => by
      apply (addExpr_commutes hr left).bind
      intro left
      apply (addExpr_commutes hr right).bind
      intro right
      apply addNode_commutes

/-- Renamed expressions are added as the same nodes. -/
theorem addExprs_commutes (hr : Function.Injective r) :
  ∀ (es : List Expr), Commutes r (addExprs es) (addExprs (Expr.renameAll r es))
  | [] => .pure []
  | e :: es => by
      apply (addExpr_commutes hr e).bind
      intro id
      apply (addExprs_commutes hr es).bind
      intro ids
      apply Commutes.pure

end

mutual

/-- A renamed statement is added as the same nodes. -/
theorem addStatement_commutes (hr : Function.Injective r) :
  ∀ (s : Statement), Commutes r (addStatement s) (addStatement (s.rename r))
  | .assign target value => by
      apply (addVariable_commutes hr target).bind
      intro target
      apply (addExpr_commutes hr value).bind
      intro value
      apply addNode_commutes
  | .branch condition consequence alternative => by
      apply (addExpr_commutes hr condition).bind
      intro condition
      apply (addStatements_commutes hr consequence).bind
      intro items
      apply (addChain_commutes items).bind
      intro consequence
      apply (addStatements_commutes hr alternative).bind
      intro items
      apply (addChain_commutes items).bind
      intro alternative
      apply (addNode_commutes .separator consequence alternative).bind
      intro arms
      apply addNode_commutes
  | .loop condition body => by
      apply (addExpr_commutes hr condition).bind
      intro condition
      apply (addStatements_commutes hr body).bind
      intro items
      apply (addChain_commutes items).bind
      intro body
      apply (addNode_commutes .separator body none).bind
      intro arms
      apply addNode_commutes
  | .call function arguments => addExpr_commutes hr (.call function arguments)
  | .ret value => (addExpr_commutes hr value).bind fun _ => addNode_commutes _ _ _
  | .output _ value => (addExpr_commutes hr value).bind fun _ => addNode_commutes _ _ _
  | .input target => (addVariable_commutes hr target).bind fun _ => addNode_commutes _ _ _

/-- Renamed statements are added as the same nodes. -/
theorem addStatements_commutes (hr : Function.Injective r) :
  ∀ (ss : List Statement),
    Commutes r (addStatements ss) (addStatements (Statement.renameAll r ss))
  | [] => .pure []
  | s :: ss => by
      apply (addStatement_commutes hr s).bind
      intro id
      apply (addStatements_commutes hr ss).bind
      intro ids
      apply Commutes.pure

end

/-- The parameters and the body of a renamed function are added as the same nodes. -/
theorem addFunction_commutes (hr : Function.Injective r) (d : Definition) :
  Commutes r (addFunction d) (addFunction (d.rename r))
  := by
  apply (functionIndex_commutes hr d.name).bind
  intro index
  apply (addVariables_commutes hr d.parameters).bind
  intro items
  apply (addChain_commutes items).bind
  intro parameters
  apply (addStatements_commutes hr d.body).bind
  intro items
  apply (addChain_commutes items).bind
  intro body
  apply Commutes.pure

/-- Renamed functions are added as the same nodes. -/
theorem addFunctions_commutes (hr : Function.Injective r) (ds : List Definition) :
  Commutes r (addFunctions ds) (addFunctions (ds.map (.rename r)))
  := by
  induction ds with
  | nil => apply Commutes.pure
  | cons d ds ih =>
    apply (addFunction_commutes hr d).bind
    intro function
    apply ih.bind
    intro functions
    apply Commutes.pure

/-- Functions are linked by their nodes, without regard to names. -/
theorem link_commutes (functions : List Unlinked) :
  Commutes r (link functions) (link functions)
  := by
  induction functions with
  | nil => apply Commutes.pure
  | cons function functions ih =>
    apply ih.bind
    intro next
    apply (addNode_commutes .separator function.body function.parameters).bind
    intro header
    apply (addNode_commutes (.function function.index) (some header) next).bind
    intro id
    apply Commutes.pure

end Layout

namespace Program

variable {r : String → String} (hr : Function.Injective r)

include hr

/-- The entry of a renamed program is the function at the position of the entry of the program. -/
theorem entryPosition_rename (program : Program) (entry : String) :
  (program.rename r).entryPosition (r entry) = program.entryPosition entry
  := by
  have hdefinitions : (program.rename r).definitions = program.definitions.map (.rename r) := rfl
  rw [entryPosition, hdefinitions, List.findIdx?_map, entryPosition]
  congr 2
  funext d
  exact Bool.eq_iff_iff.mpr (beq_iff_eq.trans (hr.eq_iff.trans beq_iff_eq.symm))

/-- A renamed program is laid out as the same nodes. -/
theorem layout_rename (program : Program) (entry : String) (start : Tree) :
  (program.rename r).layout (r entry) (start.rename r) = (program.layout entry start).rename r
  := by
  have hcommutes : Layout.Commutes r
      (do
        let functions ← Layout.addFunctions program.definitions
        let root ← Layout.link (Layout.toFront functions (program.entryPosition entry))
        modify fun t => { t with root })
      (do
        let functions ← Layout.addFunctions (program.rename r).definitions
        let root ← Layout.link
          (Layout.toFront functions ((program.rename r).entryPosition (r entry)))
        modify fun t => { t with root }) := by
    rw [program.entryPosition_rename hr]
    apply (Layout.addFunctions_commutes hr program.definitions).bind
    intro functions
    apply (Layout.link_commutes _).bind
    intro root t
    rfl
  exact congrArg Prod.snd (hcommutes start)

end Program

/-! ### Verification and code -/

/-- A renamed table has the same positions. -/
theorem SymbolTable.containsIndex_rename (r : String → String) (table : SymbolTable)
    (index : Nat) :
  (table.rename r).containsIndex index = table.containsIndex index
  := by
  rw [containsIndex, size, rename, List.length_map, containsIndex, size]

namespace Tree

variable (r : String → String) (t : Tree)

/-- The items of a chain do not depend on names. -/
theorem chainItems_rename (head : Option NodeId) (limit : Nat) :
  (t.rename r).chainItems head limit = t.chainItems head limit
  := by
  induction limit generalizing head with
  | zero => rfl
  | succ limit ih =>
    have hget : head.bind (t.rename r).get? = head.bind t.get? := rfl
    rw [chainItems, hget, chainItems]
    cases head.bind t.get? with
    | none => rfl
    | some node => exact congrArg (node.left :: ·) (ih node.right)

/-- A walk that goes on from some nodes does not depend on names. -/
theorem visitsFrom_rename (visited : Array Bool) (stack : List NodeId) :
  (t.rename r).visitsFrom visited stack = t.visitsFrom visited stack
  := by
  have hget (id : NodeId) : (t.rename r).get? id = t.get? id := rfl
  fun_induction visitsFrom t visited stack with
  | case1 visited => rw [visitsFrom]
  | case2 visited id rest hnode ih => rw [visitsFrom, hget, hnode, ih]
  | case3 visited id rest node hnode hvisited ih =>
    rw [visitsFrom, hget, hnode]
    dsimp only
    rw [dif_pos hvisited, ih]
  | case4 visited id rest node hnode hvisited ih =>
    rw [visitsFrom, hget, hnode]
    dsimp only
    rw [dif_neg hvisited, ih]

/-- The walk from the root does not depend on names. -/
theorem visits_rename :
  (t.rename r).visits = t.visits
  := t.visitsFrom_rename r _ _

/-- Which nodes are reached does not depend on names. -/
theorem reached_rename :
  (t.rename r).reached = t.reached
  := by
  rw [reached, visits_rename, reached]

/-- The length of a chain does not depend on names. -/
theorem chainLength_rename (head : Option NodeId) :
  (t.rename r).chainLength head = t.chainLength head
  := congrArg List.length (t.chainItems_rename r head t.size)

/-- What is wrong with a node does not depend on names: of the tables only the sizes matter. -/
theorem nodeFindings_rename (node : Node) :
  (t.rename r).nodeFindings node = t.nodeFindings node
  := by
  have hvars := t.vars.containsIndex_rename r
  have hfuncs := t.funcs.containsIndex_rename r
  rw [nodeFindings, nodeFindings]
  cases node.kind with
  | «variable» index =>
    change _ ++ (if (t.vars.rename r).containsIndex index then _ else _) = _
    rw [hvars]
  | function index =>
    change (if (t.funcs.rename r).containsIndex index then _ else _) ++ _ = _
    rw [hfuncs]
    rfl
  | _ => rfl

/-- Which function a node calls, and with how many arguments, does not depend on names. -/
theorem call?_rename (node : Node) :
  (t.rename r).call? node = t.call? node
  := by
  simp only [call?, chainLength_rename]

/-- Which function a node defines, and with how many parameters, does not depend on names. -/
theorem definition?_rename (node : Node) :
  (t.rename r).definition? node = t.definition? node
  := by
  simp only [definition?, chainLength_rename]
  rfl

/-- What is wrong with a tree does not depend on names. -/
theorem verify_rename :
  (t.rename r).verify = t.verify
  := by
  have hnodes : (t.rename r).nodeFindings = t.nodeFindings := funext (t.nodeFindings_rename r)
  have hcalls : (t.rename r).call? = t.call? := funext (t.call?_rename r)
  have hdefinitions : (t.rename r).definition? = t.definition? := funext (t.definition?_rename r)
  rw [verify, reached_rename, visits_rename, hnodes, hcalls, hdefinitions, verify]
  rfl

end Tree

/-- Verification of a renamed tree gives the same result and the same messages. -/
theorem verifyTree_rename (r : String → String) (t : Tree) :
  verifyTree (t.rename r) = verifyTree t
  := by
  unfold verifyTree
  rw [t.verify_rename, t.reached_rename]
  rfl

/-- Code generation reads the nodes and the root, and no table. -/
theorem generate_rename (r : String → String) (t : Tree) (listing : Listing) :
  generate (t.rename r) listing = generate t listing
  := by
  rfl

/-! ### Registered and parsed tokens -/

/-- The tree of tokens, after their functions are registered. -/
def parseRegistered (tokens : List Token) (entry : String) : Run Tree := do
  let (tokens, funcs) ← registerFunctions tokens {}
  parseTokens tokens entry { funcs }

/-- The tree of tokens, or the error in them. -/
def treeOfTokens (tokens : List Token) (entry : String) : Except SyntaxError Tree := do
  let (tokens, funcs) ← FunctionNames.register tokens {}
  let program ← Program.ofTokens funcs tokens
  return program.layout entry { funcs }

/-- The result of registration and parsing is the tree of the tokens or the error in them. -/
theorem result_parseRegistered (tokens : List Token) (entry : String) :
  (parseRegistered tokens entry).result = (treeOfTokens tokens entry).mapError .parse
  := by
  rw [parseRegistered, Run.result_bind, result_registerFunctions, treeOfTokens]
  cases FunctionNames.register tokens {} with
  | error error => rfl
  | ok registered =>
    obtain ⟨tokens, funcs⟩ := registered
    apply Eq.trans (result_parseTokens tokens entry { funcs })
    change _ = Except.mapError _ ((Program.ofTokens funcs tokens) >>= _)
    cases Program.ofTokens funcs tokens <;> rfl

/-- The tree of renamed tokens is the renamed tree, and the error in them is the renamed error. -/
theorem treeOfTokens_rename {r : String → String} (hr : Function.Injective r)
    (tokens : List Token) (entry : String) :
  treeOfTokens (tokens.map (Token.rename r)) (r entry)
    = ((treeOfTokens tokens entry).mapError (SyntaxError.rename r)).map (Tree.rename r)
  := by
  have hregister := FunctionNames.register_rename hr tokens {}
  rw [treeOfTokens, treeOfTokens]
  cases hregistered : FunctionNames.register tokens {} with
  | error error =>
    rw [hregistered] at hregister
    exact congrArg (· >>= _) hregister
  | ok registered =>
    obtain ⟨tokens, funcs⟩ := registered
    rw [hregistered] at hregister
    have hprogram := Program.ofTokens_rename hr funcs tokens
    apply Eq.trans (congrArg (· >>= _) hregister)
    change Program.ofTokens (funcs.rename r) (tokens.map (Token.rename r)) >>= _
      = Except.map _ (Except.mapError _ (Program.ofTokens funcs tokens >>= _))
    rw [hprogram]
    cases Program.ofTokens funcs tokens with
    | error error => rfl
    | ok program => exact congrArg Except.ok (program.layout_rename hr entry { funcs })

/-- The second tree has the nodes, the root and the live count of the first one, and its names are
those of the first one, replaced.  Neither verification nor code generation tells them apart. -/
structure Tree.Renames (r : String → String) (t renamed : Tree) : Prop where
  nodes : renamed.nodes = t.nodes
  root : renamed.root = t.root
  live : renamed.live = t.live
  vars : renamed.vars.names = t.vars.names.map r
  funcs : renamed.funcs.names = t.funcs.names.map r
  verified : verifyTree renamed = verifyTree t
  generated : ∀ listing, generate renamed listing = generate t listing

/-- A renamed tree differs from the tree in its names only. -/
theorem Tree.renames_rename (r : String → String) (t : Tree) :
  t.Renames r (t.rename r)
  where
  nodes := rfl
  root := rfl
  live := rfl
  vars := rfl
  funcs := rfl
  verified := verifyTree_rename r t
  generated := generate_rename r t

/-- Names do not matter.  If different names stay different when they are replaced, then tokens with
the names replaced are parsed if the tokens are, and the trees differ only in their names.
Otherwise there is the same error at the same place, with the names replaced. -/
theorem parseRegistered_rename {r : String → String} (hr : Function.Injective r)
    (tokens : List Token) (entry : String) :
  match (parseRegistered tokens entry).result with
  | .ok t =>
    ∃ renamed, (parseRegistered (tokens.map (Token.rename r)) (r entry)).result = .ok renamed
      ∧ t.Renames r renamed
  | .error failure =>
    ∃ error, failure = .parse error
      ∧ (parseRegistered (tokens.map (Token.rename r)) (r entry)).result
        = .error (.parse (error.rename r))
      ∧ (error.rename r).span = error.span
  := by
  rw [result_parseRegistered, result_parseRegistered, treeOfTokens_rename hr]
  cases treeOfTokens tokens entry with
  | error error => exact ⟨error, rfl, rfl, error.span_rename r⟩
  | ok t => exact ⟨t.rename r, rfl, t.renames_rename r⟩

/-- A function that assigns one variable to another, and the function `main` that calls it. -/
def assignAndCall : List Token :=
  [.mark .define, .variable "f", .mark .openBrace,
    .binary .assign, .variable "x", .mark .assignEnd, .variable "y", .mark .separator,
    .mark .closeBrace,
    .mark .define, .variable "main", .mark .openBrace, .variable "f", .mark .separator,
    .mark .closeBrace, .endOfInput].map fun kind => { kind, span := ⟨0, 0⟩ }

/-- With an underscore before each name there are the same nodes, and the names are those with the
underscore. -/
theorem parseRegistered_rename_assignAndCall :
  Function.Injective ("_" ++ · : String → String)
    ∧ (∃ t renamed, (parseRegistered assignAndCall "main").result = .ok t
      ∧ (parseRegistered (assignAndCall.map (Token.rename ("_" ++ ·))) "_main").result = .ok renamed
      ∧ t.Renames ("_" ++ ·) renamed
      ∧ renamed.vars.names = ["_x", "_y"]
      ∧ renamed.funcs.names = ["_f", "_main"])
  := by
  have hr : Function.Injective ("_" ++ · : String → String) :=
    fun _ _ h => (String.append_right_inj "_").mp h
  have hnames : (parseRegistered assignAndCall "main").result.toOption.map
      (fun t => (t.vars.names, t.funcs.names)) = some (["x", "y"], ["f", "main"]) := by
    decide +kernel
  obtain ⟨t, hsome, ht⟩ := Option.map_eq_some_iff.mp hnames
  have hok := eq_ok_of_toOption hsome
  obtain ⟨hvars, hfuncs⟩ := Prod.mk.inj ht
  have hrename := parseRegistered_rename hr assignAndCall "main"
  rw [hok] at hrename
  obtain ⟨renamed, hrenamed, hnames⟩ := hrename
  refine ⟨hr, t, renamed, hok, hrenamed, hnames, ?_, ?_⟩
  · rw [hnames.vars, hvars]
    rfl
  · rw [hnames.funcs, hfuncs]
    rfl

end StackCompiler
