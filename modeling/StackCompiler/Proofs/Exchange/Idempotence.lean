import Mathlib.Order.Bounds.Basic
import StackCompiler.Proofs.Exchange.Descent

/-!
# Reading what was written from a read tree

Texts of one tree differ in blanks, in how numbers are spelled, and in payloads that do not matter.
Writing a tree that was read gives one of them, and reading that gives the same tree again, with all
its parent links and names, unless some value is not a number.
-/

namespace StackCompiler

/-! ### Kinds that are read -/

/-- What is read as the position of a name is small enough to be read again. -/
theorem NodeKind.le_of_symbolIndex? {payload : Binary64} {index : Nat}
    (h : symbolIndex? payload = some index) :
  index ≤ maxSymbolIndex
  := by
  unfold symbolIndex? at h
  obtain ⟨k, hk, rfl⟩ := Option.map_eq_some_iff.mp h
  obtain ⟨-, hbounds⟩ := Option.filter_eq_some_iff.mp hk
  simp only [Bool.and_eq_true, decide_eq_true_eq] at hbounds
  omega

theorem NodeKind.isReadable_of_ofPayload? {tag : Int} {payload : Binary64} {kind : NodeKind}
    (h : ofPayload? tag payload = some kind) :
  kind.isReadable
  := by
  unfold ofPayload? at h
  split at h
  · cases h
    rfl
  · split at h <;> cases h
    rfl
  · obtain ⟨op, -, rfl⟩ := Option.map_eq_some_iff.mp h
    rfl
  · obtain ⟨op, -, rfl⟩ := Option.map_eq_some_iff.mp h
    rfl
  · obtain ⟨op, -, rfl⟩ := Option.map_eq_some_iff.mp h
    rfl
  · cases h
    rfl
  · obtain ⟨index, hindex, rfl⟩ := Option.map_eq_some_iff.mp h
    apply decide_eq_true (le_of_symbolIndex? hindex)
  · obtain ⟨index, hindex, rfl⟩ := Option.map_eq_some_iff.mp h
    apply decide_eq_true (le_of_symbolIndex? hindex)
  · cases h

theorem NodeKind.mem_filterMap_variableIndex? {kinds : List NodeKind} {index : Nat} :
  index ∈ kinds.filterMap (·.variableIndex?) ↔ .variable index ∈ kinds
  := by
  have hkind : ∀ kind : NodeKind, kind.variableIndex? = some index ↔ kind = .variable index := by
    intro kind
    cases kind <;> simp [variableIndex?]
  simp [hkind]

theorem NodeKind.mem_filterMap_functionIndex? {kinds : List NodeKind} {index : Nat} :
  index ∈ kinds.filterMap (·.functionIndex?) ↔ .function index ∈ kinds
  := by
  have hkind : ∀ kind : NodeKind, kind.functionIndex? = some index ↔ kind = .function index := by
    intro kind
    cases kind <;> simp [functionIndex?]
  simp [hkind]

namespace Exchange

/-- Placeholders reach exactly up to the largest of the positions. -/
theorem placeholders_eq_numbered {indices : List Nat} {P : Nat → Prop}
    (h : ∀ index, index ∈ indices ↔ P index) (stem : String) :
  (∀ largest, IsGreatest {index | P index} largest →
      placeholders indices stem = .numbered stem (largest + 1))
    ∧ ((∀ index, ¬ P index) → placeholders indices stem = {})
  := by
  constructor
  · rintro largest ⟨hmem, hle⟩
    apply placeholders_of_max ((h largest).mpr hmem)
    exact fun index hindex => hle ((h index).mp hindex)
  · intro hnone
    obtain rfl : indices = [] :=
      List.eq_nil_iff_forall_not_mem.mpr fun index hindex => hnone index ((h index).mp hindex)
    rfl

theorem Writes.isReadable {symbols : List Symbol} {s : Shape} (h : Writes symbols s) :
  ∀ kind ∈ s.kinds, kind.isReadable
  := by
  induction h with
  | absent => simp [Shape.kinds]
  | node htag hpayload hleft hright ihl ihr =>
    rw [Shape.kinds, List.forall_mem_cons, List.forall_mem_append]
    exact ⟨NodeKind.isReadable_of_ofPayload? hpayload, ihl, ihr⟩

/-- The written symbols of an unfolding form one node of its shape. -/
theorem exists_writes_symbols (u : Unfolding) (hu : ∀ kind ∈ u.shape.kinds, kind.isReadable)
    (further : List Symbol) :
  ∃ written, Writes written u.shape.reread
    ∧ (u.symbols further).map Symbol.reread = written ++ further.map Symbol.reread
  := by
  induction u generalizing further with
  | absent => exact ⟨_, .absent, rfl⟩
  | dangling id => exact ⟨_, .absent, rfl⟩
  | cut id => exact ⟨_, .absent, rfl⟩
  | node id kind left right ihl ihr =>
    obtain ⟨hkind, hchildren⟩ := List.forall_mem_cons.mp hu
    obtain ⟨hleft, hright⟩ := List.forall_mem_append.mp hchildren
    obtain ⟨l, hl, hlsymbols⟩ := ihl hleft (right.symbols (.closing :: further))
    obtain ⟨r, hr, hrsymbols⟩ := ihr hright (.closing :: further)
    have hpayload := kind.ofPayload?_payload
    rw [if_pos hkind] at hpayload
    refine ⟨_, .node kind.tag?_tag hpayload hl hr, ?_⟩
    rw [map_reread_symbols, hlsymbols, hrsymbols]
    simp [Symbol.reread]

end Exchange

/-! ### Planted trees show their shape -/

theorem Unfolding.kinds_shape (u : Unfolding) :
  u.shape.kinds = u.kinds
  := by
  induction u with
  | absent => rfl
  | dangling id => rfl
  | cut id => rfl
  | node id kind left right ihl ihr => rw [shape, Shape.kinds, ihl, ihr, kinds]

namespace Tree

/-- A planted shape stands below the link to it, and what was there before stays. -/
theorem exists_unfolds_plant (t : Tree) (s : Shape) :
  t.Keeps (t.plant s).2
    ∧ ∃ u, (t.plant s).2.Unfolds (t.plant s).1 u ∧ u.shape = s
  := by
  induction s generalizing t with
  | absent => exact ⟨.refl t, .absent, .absent, rfl⟩
  | node kind l r ihl ihr =>
    obtain ⟨hkeeps, u, hu, rfl⟩ := ihl (t.reserve kind)
    obtain ⟨hkeeps', v, hv, rfl⟩ := ihr ((t.reserve kind).plant u.shape).2
    constructor
    · exact (((t.keeps_reserve kind).trans hkeeps).trans hkeeps').trans (keeps_node _ _ _ _)
    · exact ⟨_, .newNode _ (hu.mono hkeeps') hv, rfl⟩

theorem shape_unfolding_ofShape (s : Shape) :
  (ofShape s).unfolding.shape = s
  := by
  obtain ⟨-, u, hu, rfl⟩ := exists_unfolds_plant {} s
  have hroot : (ofShape u.shape).Unfolds (ofShape u.shape).root u := hu.mono (.of_nodes_eq rfl)
  rw [hroot.unfolding_eq]

/-- A written shape is read as a tree that holds nothing else. -/
theorem read_dump_ofShape {s : Shape} (h : ∀ kind ∈ s.kinds, kind.isReadable) :
  read (ofShape s).dump = .ok (ofShape s.reread)
  := by
  obtain ⟨placed, hscan, hplaced⟩ := Exchange.scanFrom_symbols (ofShape s).symbols 0
  have hshape := shape_unfolding_ofShape s
  obtain ⟨written, hwritten, hsymbols⟩ :=
    Exchange.exists_writes_symbols (ofShape s).unfolding (by rwa [hshape]) []
  rw [hshape] at hwritten
  rw [symbols, hsymbols, List.map_nil, List.append_nil] at hplaced
  apply read_eq_ok_iff.mpr
  use placed, s.reread, hscan
  rw [hplaced]
  use hwritten

/-- A tree that is read is read again from its own text, with the same arena, root, count and names:
those of the positions up to the largest one that occurs. -/
theorem read_dump_of_read {text : String} {t : Tree} (h : read text = .ok t)
    (hnumbers : ∀ value, .number value ∈ t.kinds → ¬ value.isNaN) :
  read t.dump = .ok t
    ∧ (∀ largest, IsGreatest {index | .variable index ∈ t.kinds} largest →
        t.vars = .numbered "var" (largest + 1))
    ∧ ((∀ index, .variable index ∉ t.kinds) → t.vars = {})
    ∧ (∀ largest, IsGreatest {index | .function index ∈ t.kinds} largest →
        t.funcs = .numbered "func" (largest + 1))
    ∧ ((∀ index, .function index ∉ t.kinds) → t.funcs = {})
  := by
  obtain ⟨placed, s, -, hs, rfl⟩ := read_eq_ok_iff.mp h
  have hreread : s.reread = s := by
    have hkinds := (ofShape s).unfolding.kinds_shape
    have hsame := @Unfolding.reread_shape (ofShape s).unfolding
    rw [← hkinds, shape_unfolding_ofShape] at hsame
    apply hsame
    intro value hvalue
    apply hnumbers value ((kinds_ofShape s).mem_iff.mpr hvalue)
  have hread := read_dump_ofShape hs.isReadable
  rw [hreread] at hread
  obtain ⟨hvars, hfuncs⟩ := reserves_ofShape s
  rw [hvars, hfuncs]
  obtain ⟨hlargestVar, hnoVar⟩ :=
    Exchange.placeholders_eq_numbered (fun _ => NodeKind.mem_filterMap_variableIndex?) "var"
  obtain ⟨hlargestFunc, hnoFunc⟩ :=
    Exchange.placeholders_eq_numbered (fun _ => NodeKind.mem_filterMap_functionIndex?) "func"
  exact ⟨hread, hlargestVar, hnoVar, hlargestFunc, hnoFunc⟩

/-- An infinite value that is assigned to the third variable, with numbers that are not spelled as
the writer spells them and with a payload that is ignored. -/
def spelledLoosely : String :=
  "(6 0\n(0 2.3e1 (0 23 (1 20 (5 2 _ _) (4 1e999 _ _)) _) (-1 7.5 _ _))\n_)"

/-- The text that is written differs from the one that was read, and both are read alike. -/
theorem read_dump_of_read_spelledLoosely :
  ∃ t, read spelledLoosely = .ok t
    ∧ t.dump = "( 6 0 ( 0 23 ( 0 23 ( 1 20 ( 5 2 _ _ ) ( 4 inf _ _ ) ) _ ) ( -1 0 _ _ ) ) _ )\n"
    ∧ read t.dump = .ok t ∧ t.vars = .numbered "var" 3 ∧ t.funcs = .numbered "func" 1
  := by
  have hfacts : (read spelledLoosely).toOption.map (fun t => (t.dump, t.kinds))
      = some ("( 6 0 ( 0 23 ( 0 23 ( 1 20 ( 5 2 _ _ ) ( 4 inf _ _ ) ) _ ) ( -1 0 _ _ ) ) _ )\n",
        [.variable 2, .number (.infinity false), .binary .assign, .separator, .hole, .separator,
          .function 0]) := by decide +kernel
  cases hread : read spelledLoosely with
  | error error =>
    rw [hread] at hfacts
    cases hfacts
  | ok t =>
    rw [hread] at hfacts
    obtain ⟨hdump, hkinds⟩ := Prod.mk.inj (Option.some.inj hfacts)
    have hinfinity : ¬ (Binary64.infinity false).isNaN := by decide
    obtain ⟨hagain, hvars, -, hfuncs, -⟩ :=
      read_dump_of_read hread (by simpa [hkinds] using hinfinity)
    have hlargestVar : IsGreatest {index | .variable index ∈ t.kinds} 2 := by
      simp [hkinds, IsGreatest, upperBounds]
    have hlargestFunc : IsGreatest {index | .function index ∈ t.kinds} 0 := by
      simp [hkinds, IsGreatest, upperBounds]
    exact ⟨t, rfl, hdump, hagain, hvars 2 hlargestVar, hfuncs 0 hlargestFunc⟩

end Tree

end StackCompiler
