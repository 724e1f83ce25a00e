import StackCompiler.Proofs.Compile.Outcomes
import StackCompiler.Proofs.Exchange.RoundTrip
import StackCompiler.Proofs.Tree.Order

/-!
# The arenas of the front ends

A tree comes from a source or from a text in the exchange format.  In both cases nodes are only
added above others, and in the end everything hangs on the root: the arena is one ordered tree.
-/

namespace StackCompiler

/-! ### Reading -/

namespace Exchange

/-- The links that wait to be joined: what was completed last, and the left children of the nodes
that wait for a right one. -/
def openLinks (waiting : List Pending) : Focus → List (Option NodeId)
  | .awaiting => waiting.flatMap (·.left.toList)
  | .complete link => link :: waiting.flatMap (·.left.toList)

/-- While a text is read, the arena is made up of the trees below the links that wait to be joined;
in the end it is one tree. -/
theorem readFrom_holds {stop : Nat} {t : Tree} {waiting : List Pending} {focus : Focus}
    {symbols : List Placed} {link : Option NodeId} {t' : Tree} {rest : List Placed}
    (h : readFrom stop t waiting focus symbols = .ok (link, t', rest))
    {forest : Multiset (Option NodeId × Shape)} (hforest : t.Holds forest)
    (hlinks : forest.map Prod.fst = openLinks waiting focus) :
  ∃ s, t'.Holds {(link, s)}
  := by
  fun_induction readFrom stop t waiting focus symbols generalizing forest with
  | case1 t waiting span rest ih =>
    apply ih h hforest.absent
    rw [Multiset.map_cons, hlinks]
    rfl
  | case2 => cases h
  | case3 t waiting span rest kind rest' hkind ih =>
    have hreserved := hforest.of_nodes_eq (t.nodes_reserve kind) (t.live_reserve kind)
    apply ih h hreserved hlinks
  | case4 => cases h
  | case5 t symbols link =>
    cases h
    obtain ⟨⟨_, s⟩, rfl, rfl⟩ := Multiset.map_eq_singleton.mp hlinks
    exact ⟨s, hforest⟩
  | case6 t symbols link kind waiting ih => apply ih h hforest hlinks
  | case7 t link kind left waiting span rest id grown hnode ih =>
    -- The new node joins the left child that waited and what was completed.
    have hjoined : forest.map Prod.fst
        = link ::ₘ left ::ₘ Multiset.ofList (waiting.flatMap (·.left.toList)) := hlinks
    obtain ⟨⟨_, r⟩, forest, rfl, rfl, hrest⟩ := Multiset.exists_of_map_eq_cons hjoined
    obtain ⟨⟨_, l⟩, others, rfl, rfl, hothers⟩ := Multiset.exists_of_map_eq_cons hrest
    rw [Multiset.cons_swap] at hforest
    obtain rfl : t.size = id := congrArg Prod.fst hnode
    obtain rfl := congrArg Prod.snd hnode
    apply ih h (hforest.node kind)
    rw [Multiset.map_cons, hothers]
    rfl
  | case8 => cases h

end Exchange

/-- A tree that is read is the one that the reader comes to at the end of the text. -/
theorem Tree.read_eq_ok {text : String} {t : Tree} (h : Tree.read text = .ok t) :
  ∃ placed root grown,
    Exchange.readFrom text.utf8ByteSize {} [] .awaiting placed = .ok (root, grown, [])
    ∧ t = { grown with root }
  := by
  rw [Tree.read] at h
  obtain ⟨placed, -, h⟩ := Parse.bind_eq_ok.mp h
  obtain ⟨⟨root, grown, rest⟩, hread, h⟩ := Parse.bind_eq_ok.mp h
  cases rest with
  | cons placed rest => cases h
  | nil =>
    cases h
    exact ⟨placed, root, grown, hread, rfl⟩

/-- The arena of a tree that is read is one tree. -/
theorem Tree.read_holds {text : String} {t : Tree} (h : Tree.read text = .ok t) :
  ∃ s, t.Holds {(t.root, s)}
  := by
  obtain ⟨placed, root, grown, hread, rfl⟩ := Tree.read_eq_ok h
  obtain ⟨s, hholds⟩ := Exchange.readFrom_holds hread (.empty rfl rfl) rfl
  use s
  apply hholds.of_nodes_eq
  · rfl
  · rfl

theorem result_readTree (text : String) :
  (readTree text).result = (Tree.read text).mapError .read
  := by
  unfold readTree
  split
  · rename_i herror
    rw [herror]
    rfl
  · rename_i hok
    rw [hok]
    rfl

/-! ### Both front ends -/

/-- The arena of the tree of a source is one tree. -/
theorem parse_holds {source entry : String} {t : Tree} (h : (parse source entry).result = .ok t) :
  ∃ s, t.Holds {(t.root, s)}
  := by
  obtain ⟨program, funcs, -, rfl⟩ := parse_eq_ok h
  exact ⟨_, program.layout_holds entry rfl rfl⟩

/-- The tree of a source, and a tree that is read, is one ordered arena. -/
theorem frontEnds_ordered {t : Tree}
    (h : (∃ source entry, (parse source entry).result = .ok t)
      ∨ ∃ text, (readTree text).result = .ok t) :
  t.Ordered
  := by
  obtain ⟨s, hholds⟩ : ∃ s, t.Holds {(t.root, s)} := by
    rcases h with ⟨source, entry, hparse⟩ | ⟨text, hread⟩
    · apply parse_holds hparse
    · rw [result_readTree] at hread
      apply Tree.read_holds (mapError_eq_ok hread)
  obtain ⟨u, hparts, -⟩ := hholds.single
  apply hparts.ordered

/-- A function with a parameter, and a function that calls it. -/
def calledBefore : String :=
  "Mellon f Fellowship x of the Ring Black Gates "
    ++ "Mellon main Black f Fellowship 1 of the Ring Precious Gates"

/-- The entry of the source is the last of ten nodes, and a text may be read as a tree without a
node. -/
theorem frontEnds_ordered_calledBefore :
  (∃ t, (parse calledBefore "main").result = .ok t ∧ t.root = some 9 ∧ t.size = 10 ∧ t.Ordered)
    ∧ ∃ t, (readTree "_").result = .ok t ∧ t.root = none ∧ t.size = 0 ∧ t.Ordered
  := by
  have hparsed : (parse calledBefore "main").result.toOption.map (fun t => (t.root, t.size))
      = some (some 9, 10) := by decide +kernel
  have hread : (readTree "_").result.toOption.map (fun t => (t.root, t.size))
      = some (none, 0) := by decide +kernel
  obtain ⟨t, ht, heq⟩ := Option.map_eq_some_iff.mp hparsed
  obtain ⟨t', ht', heq'⟩ := Option.map_eq_some_iff.mp hread
  obtain ⟨hroot, hsize⟩ := Prod.mk.inj heq
  obtain ⟨hroot', hsize'⟩ := Prod.mk.inj heq'
  have hok := eq_ok_of_toOption ht
  have hok' := eq_ok_of_toOption ht'
  constructor
  · use t, hok, hroot, hsize
    apply frontEnds_ordered (.inl ⟨_, _, hok⟩)
  · use t', hok', hroot', hsize'
    apply frontEnds_ordered (.inr ⟨_, hok'⟩)

end StackCompiler
