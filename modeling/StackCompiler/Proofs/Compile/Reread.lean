import StackCompiler.Proofs.Assembly.Reading
import StackCompiler.Proofs.Compile.FrontEnds
import StackCompiler.Proofs.Exchange.Descent

/-!
# Compiling a written tree

The tree of a source is written without names.  It is read back with other names in its tables and
with its nodes in another order, but in the same shape, since all numbers of a source are finite.
Every position in it has a name in the old tables and in the new ones, and that is all that
verification wants to know of a table.  So the same is found in both trees, and they have the same
code.
-/

namespace StackCompiler

/-! ### Tables that resolve a shape -/

/-- Whether the tables have a name for the variable or function of a node. -/
def NodeKind.isResolved (vars funcs : SymbolTable) : NodeKind → Bool
  | .variable index => vars.containsIndex index
  | .function index => funcs.containsIndex index
  | _ => true

/-- Positions in tables that are small enough are read back. -/
theorem NodeKind.isReadable_of_isResolved {vars funcs : SymbolTable} {kind : NodeKind}
    (hvars : vars.size ≤ maxSymbolIndex + 1) (hfuncs : funcs.size ≤ maxSymbolIndex + 1)
    (h : kind.isResolved vars funcs) :
  kind.isReadable
  := by
  match kind, h with
  | .variable index, h =>
    have hlt : index < vars.size := of_decide_eq_true h
    apply decide_eq_true
    omega
  | .function index, h =>
    have hlt : index < funcs.size := of_decide_eq_true h
    apply decide_eq_true
    omega
  | .hole, _ | .separator, _ | .binary _, _ | .unary _, _ | .control _, _ | .number _, _ => rfl

namespace Shape

variable {vars funcs vars' funcs' : SymbolTable} {s : Shape}

theorem collect_congr {α : Type} {f g : NodeKind → Shape → Shape → List α}
    (h : s.Every fun kind left right => f kind left right = g kind left right) :
  s.collect f = s.collect g
  := by
  induction s with
  | absent => rfl
  | node kind left right ihl ihr =>
    obtain ⟨hnode, hleft, hright⟩ := h
    rw [collect, hnode, ihl hleft, ihr hright, collect]

theorem Every.and {P Q : NodeKind → Shape → Shape → Prop} (hP : s.Every P) (hQ : s.Every Q) :
  s.Every fun kind left right => P kind left right ∧ Q kind left right
  := by
  induction s with
  | absent => trivial
  | node kind left right ihl ihr =>
    obtain ⟨hnode, hleft, hright⟩ := hP
    obtain ⟨hnode', hleft', hright'⟩ := hQ
    exact ⟨⟨hnode, hnode'⟩, ihl hleft hleft', ihr hright hright'⟩

/-- What is found at a node does not depend on the tables if they resolve the node. -/
theorem nodeFindings_of_isResolved {kind : NodeKind} {left right : Shape}
    (h : kind.isResolved vars funcs) (h' : kind.isResolved vars' funcs') :
  nodeFindings vars funcs kind left right = nodeFindings vars' funcs' kind left right
  := by
  match kind, h, h' with
  | .variable index, h, h' =>
    have hvars : vars.containsIndex index := h
    have hvars' : vars'.containsIndex index := h'
    rw [nodeFindings, hvars, nodeFindings, hvars']
  | .function index, h, h' =>
    have hfuncs : funcs.containsIndex index := h
    have hfuncs' : funcs'.containsIndex index := h'
    rw [nodeFindings, hfuncs, nodeFindings, hfuncs']
  | .hole, _, _ | .separator, _, _ | .binary _, _, _ | .unary _, _, _ | .control _, _, _
  | .number _, _, _ => rfl

/-- What is found in a shape does not depend on the tables if they resolve all its nodes. -/
theorem findings_of_isResolved (h : s.Every fun kind _ _ => kind.isResolved vars funcs)
    (h' : s.Every fun kind _ _ => kind.isResolved vars' funcs') :
  s.findings vars funcs = s.findings vars' funcs'
  := by
  rw [findings, findings]
  congr 1
  apply collect_congr
  apply (h.and h').mono
  rintro kind left right ⟨hnode, hnode'⟩
  apply nodeFindings_of_isResolved hnode hnode'

/-- The tables resolve a node at which nothing is found but calls that do not fit. -/
theorem isResolved_of_forall_eq {kind : NodeKind} {left right : Shape}
    (h : ∀ finding ∈ nodeFindings vars funcs kind left right, finding = .callArity) :
  kind.isResolved vars funcs
  := by
  match kind, h with
  | .variable index, h =>
    by_contra hnot
    have hvars : ¬ vars.containsIndex index := hnot
    cases h .unresolvedIndex (by simp [nodeFindings, hvars])
  | .function index, h =>
    by_contra hnot
    have hfuncs : ¬ funcs.containsIndex index := hnot
    cases h .unresolvedIndex (by simp [nodeFindings, hfuncs])
  | .hole, _ | .separator, _ | .binary _, _ | .unary _, _ | .control _, _ | .number _, _ => rfl

end Shape

/-- The nodes of an unfolding have a property of kinds exactly if those of its shape have it. -/
theorem Unfolding.forall_kinds {P : NodeKind → Prop} {u : Unfolding} :
  (∀ kind ∈ u.kinds, P kind) ↔ u.shape.Every fun kind _ _ => P kind
  := by
  induction u with
  | absent => simp [kinds, shape, Shape.Every]
  | dangling id => simp [kinds, shape, Shape.Every]
  | cut id => simp [kinds, shape, Shape.Every]
  | node id kind left right ihl ihr =>
    rw [kinds, List.forall_mem_cons, List.forall_mem_append, ihl, ihr, shape, Shape.Every]

theorem Tree.Unfolds.every_shape {t : Tree} {link : Option NodeId} {u : Unfolding}
    {P : NodeKind → Prop} (hu : t.Unfolds link u)
    (h : ∀ id n, t.get? id = some n → P n.kind) :
  u.shape.Every fun kind _ _ => P kind
  := by
  induction hu with
  | absent => trivial
  | @node id n left right hget hleft hright ihl ihr => exact ⟨h id n hget, ihl, ihr⟩

/-! ### Placeholders -/

namespace Exchange

/-- Placeholders reach up to the largest of the positions. -/
theorem containsIndex_placeholders {indices : List Nat} {index : Nat} (h : index ∈ indices)
    (stem : String) :
  (placeholders indices stem).containsIndex index
  := by
  unfold placeholders
  split
  · rename_i hnone
    rw [List.max?_eq_none_iff.mp hnone] at h
    cases h
  · rename_i largest hlargest
    have hle : index ≤ largest := (List.max?_eq_some_iff.mp hlargest).2 index h
    apply decide_eq_true
    simp [SymbolTable.reserveThrough, SymbolTable.size]
    omega

end Exchange

/-- The tables of a tree that is read resolve all its nodes. -/
theorem Tree.isResolved_of_read {text : String} {t : Tree} (h : Tree.read text = .ok t) :
  ∀ id n, t.get? id = some n → n.kind.isResolved t.vars t.funcs
  := by
  obtain ⟨placed, s, -, -, rfl⟩ := Tree.read_eq_ok_iff.mp h
  obtain ⟨hvars, hfuncs⟩ := Tree.reserves_ofShape s
  rw [hvars, hfuncs]
  intro id n hget
  have hmem : n.kind ∈ (Tree.ofShape s).kinds := by
    apply List.mem_map_of_mem
    apply Array.mem_toList_iff.mpr (Array.mem_of_getElem? hget)
  match n.kind, hmem with
  | .variable index, hmem =>
    apply Exchange.containsIndex_placeholders
    exact List.mem_filterMap.mpr ⟨_, hmem, rfl⟩
  | .function index, hmem =>
    apply Exchange.containsIndex_placeholders
    exact List.mem_filterMap.mpr ⟨_, hmem, rfl⟩
  | .hole, _ | .separator, _ | .binary _, _ | .unary _, _ | .control _, _ | .number _, _ => rfl

/-! ### Finite values -/

/-- Whether a node holds no value or a finite one. -/
def NodeKind.isFinite : NodeKind → Bool
  | .number value => value.isFinite
  | _ => true

section Finite

variable {vars funcs : SymbolTable}

theorem variableShape_isFinite (name : String) :
  (variableShape vars name).Every fun kind _ _ => kind.isFinite
  := ⟨rfl, trivial, trivial⟩

mutual

theorem Expr.isFinite_shape :
  ∀ (e : Expr), AllFinite e.leaves → (e.shape vars funcs).Every fun kind _ _ => kind.isFinite
  | .number value, h => ⟨h value List.mem_cons_self, trivial, trivial⟩
  | .variable name, _ => variableShape_isFinite name
  | .input target, _ => ⟨rfl, trivial, variableShape_isFinite target⟩
  | .call _ arguments, h =>
      ⟨rfl, trivial, .chain (Expr.isFinite_shapes arguments h.of_cons) fun _ _ => rfl⟩
  | .math _ operand, h => ⟨rfl, trivial, operand.isFinite_shape h⟩
  | .arithmetic _ left right, h =>
      ⟨rfl, left.isFinite_shape h.of_append.1, right.isFinite_shape h.of_append.2⟩
  | .comparison _ left right, h =>
      ⟨rfl, left.isFinite_shape h.of_append.1, right.isFinite_shape h.of_append.2⟩

theorem Expr.isFinite_shapes :
  ∀ (es : List Expr), AllFinite (Expr.leavesOfAll es) →
    ∀ item ∈ Expr.shapes vars funcs es, item.Every fun kind _ _ => kind.isFinite
  | [], _ => nofun
  | e :: es, h => List.forall_mem_cons.mpr
      ⟨e.isFinite_shape h.of_append.1, Expr.isFinite_shapes es h.of_append.2⟩

end

mutual

theorem Statement.isFinite_shape :
  ∀ (s : Statement), AllFinite s.leaves →
    (s.shape vars funcs).Every fun kind _ _ => kind.isFinite
  | .assign target value, h =>
      ⟨rfl, variableShape_isFinite target, value.isFinite_shape h.of_cons⟩
  | .branch condition consequence alternative, h => by
      obtain ⟨hcondition, harms⟩ := h.of_append
      use rfl, condition.isFinite_shape hcondition, rfl
      constructor
      · apply Shape.Every.chain (Statement.isFinite_shapes consequence harms.of_append.1)
        intro _ _
        rfl
      · apply Shape.Every.chain (Statement.isFinite_shapes alternative harms.of_append.2)
        intro _ _
        rfl
  | .loop condition body, h =>
      ⟨rfl, condition.isFinite_shape h.of_append.1, rfl,
        .chain (Statement.isFinite_shapes body h.of_append.2) fun _ _ => rfl, trivial⟩
  | .call function arguments, h => (Expr.call function arguments).isFinite_shape h
  | .ret value, h => ⟨rfl, trivial, value.isFinite_shape h⟩
  | .output _ value, h => ⟨rfl, trivial, value.isFinite_shape h⟩
  | .input target, _ => ⟨rfl, trivial, variableShape_isFinite target⟩

theorem Statement.isFinite_shapes :
  ∀ (ss : List Statement), AllFinite (Statement.leavesOfAll ss) →
    ∀ item ∈ Statement.shapes vars funcs ss, item.Every fun kind _ _ => kind.isFinite
  | [], _ => nofun
  | s :: ss, h => List.forall_mem_cons.mpr
      ⟨s.isFinite_shape h.of_append.1, Statement.isFinite_shapes ss h.of_append.2⟩

end

theorem Definition.isFinite_chainShape {ds : List Definition}
    (h : ∀ d ∈ ds, AllFinite d.leaves) :
  (Definition.chainShape vars funcs ds).Every fun kind _ _ => kind.isFinite
  := by
  induction ds with
  | nil => trivial
  | cons d ds ih =>
    obtain ⟨hd, hds⟩ := List.forall_mem_cons.mp h
    use rfl
    constructor
    · use rfl
      constructor
      · apply Shape.Every.chain (Statement.isFinite_shapes d.body hd.of_append.2)
        intro _ _
        rfl
      · apply Shape.Every.chain
        · intro item hitem
          obtain ⟨name, -, rfl⟩ := List.mem_map.mp hitem
          apply variableShape_isFinite
        · intro _ _
          rfl
    · apply ih hds

end Finite

namespace Tree.LaysOut

variable {t : Tree} {first : Definition} {others : List Definition}

/-- The tables of the tree of a source resolve all its nodes. -/
theorem isResolved (h : t.LaysOut first others) :
  (Definition.chainShape t.vars t.funcs (first :: others)).Every fun kind _ _ =>
    kind.isResolved t.vars t.funcs
  := by
  have hnodes := Shape.forall_mem_collect.mp (List.forall_mem_append.mp h.findings).1
  apply hnodes.mono
  intro kind left right
  apply Shape.isResolved_of_forall_eq

/-- The text of the tree of a source is read as a tree of the same shape. -/
theorem exists_read_dump (h : t.LaysOut first others) (hvars : t.vars.size ≤ maxSymbolIndex + 1)
    (hfuncs : t.funcs.size ≤ maxSymbolIndex + 1) :
  ∃ t' v, read t.dump = .ok t' ∧ t'.Unfolds t'.root v
    ∧ v.shape = Definition.chainShape t.vars t.funcs (first :: others)
  := by
  have hshape := h.shows.shape_eq
  have hreadable : ∀ kind ∈ t.unfolding.kinds, kind.isReadable := by
    rw [Unfolding.forall_kinds, hshape]
    apply h.isResolved.mono
    intro kind _ _
    apply NodeKind.isReadable_of_isResolved hvars hfuncs
  have hfinite : ∀ kind ∈ t.unfolding.kinds, kind.isFinite := by
    rw [Unfolding.forall_kinds, hshape]
    apply Definition.isFinite_chainShape h.finite
  obtain ⟨t', v, hread, hv, hshape'⟩ := Tree.exists_read_dump hreadable
  use t', v, hread, hv
  rw [hshape', Unfolding.reread_shape, hshape]
  intro value hvalue
  apply Binary64.not_isNaN_of_isFinite (hfinite _ hvalue)

end Tree.LaysOut

/-- A source whose tables are small enough is compiled through its written tree like directly: the
text of its tree is read, the same is found in what is read, and it has the same assembly or fails
in the same way. -/
theorem compileTree_reread {source entry : String} {t : Tree}
    (hparse : (parse source entry).result = .ok t) (hvars : t.vars.size ≤ maxSymbolIndex + 1)
    (hfuncs : t.funcs.size ≤ maxSymbolIndex + 1) :
  ∃ t', (readTree t.dump).result = .ok t' ∧ t'.verify = t.verify
    ∧ (compileTree t').result.map (·.assembly) = (compileTree t).result.map (·.assembly)
  := by
  obtain ⟨first, others, hlays⟩ := laysOut_of_parse hparse
  obtain ⟨t', v, hread, hv, hshape⟩ := hlays.exists_read_dump hvars hfuncs
  obtain ⟨s, hholds⟩ := Tree.read_holds hread
  obtain ⟨u, hparts, -⟩ := hholds.single
  obtain rfl := hparts.unfolds_single.unique hv
  have hverify : t'.verify = t.verify := by
    rw [Tree.verify_eq_of_unfolds hv hparts.nodup_ids hparts.length_ids (by rw [hshape]; rfl),
      hlays.verify, hshape]
    congr 1
    apply Shape.findings_of_isResolved _ hlays.isResolved
    rw [← hshape]
    apply hv.every_shape (Tree.isResolved_of_read hread)
  have hgenerate : (generate t' {}).result = (generate t {}).result := by
    have hshows := hv.shows
    rw [hshape] at hshows
    rw [hv.result_generate, Unfolding.lower, Lower.program_eq _ hshows, hlays.result_generate]
    rfl
  use t'
  constructor
  · rw [result_readTree, hread]
    rfl
  · use hverify
    rw [result_compileTree, result_compileTree, hverify, hgenerate]
    cases (generate t {}).result <;> split <;> rfl

/-- The entry comes after the function that it calls in the source and in the arena, and before it
in the text. -/
theorem compileTree_reread_calledBefore :
  ∃ t t', (parse calledBefore "main").result = .ok t ∧ t.vars.size = 1 ∧ t.funcs.size = 2
    ∧ (readTree t.dump).result = .ok t' ∧ t'.verify = t.verify
    ∧ (compileTree t').result.map (·.assembly) = (compileTree t).result.map (·.assembly)
  := by
  have hparsed : (parse calledBefore "main").result.toOption.map
      (fun t => (t.vars.size, t.funcs.size)) = some (1, 2) := by decide +kernel
  obtain ⟨t, ht, heq⟩ := Option.map_eq_some_iff.mp hparsed
  obtain ⟨hvars, hfuncs⟩ := Prod.mk.inj heq
  have hparse := eq_ok_of_toOption ht
  obtain ⟨t', hread, hverify, hassembly⟩ :=
    compileTree_reread hparse (by rw [hvars]; decide) (by rw [hfuncs]; decide)
  exact ⟨t, t', hparse, hvars, hfuncs, hread, hverify, hassembly⟩

end StackCompiler
