import StackCompiler.Proofs.Assembly.Generation
import StackCompiler.Proofs.Program.Code
import StackCompiler.Proofs.Program.Findings
import StackCompiler.Proofs.Program.Parsed
import StackCompiler.Proofs.Tree.Verified

/-!
# Outcomes of a compilation

The tree of a source is a chain of definitions, with the one that runs first in front.  Verification
finds nothing in it but calls with the wrong number of arguments, and it always has code.  So the
compilation of a source succeeds, or it fails with an error in the text, or with a call that does
not fit.
-/

namespace StackCompiler

/-! ### Masks -/

namespace Findings

/-- A finding that is in the mask changes nothing. -/
theorem insert_insert (findings : Findings) (finding : Finding) :
  (findings.insert finding).insert finding = findings.insert finding
  := by
  simp only [insert, BitVec.or_assoc, BitVec.or_self]

/-- Findings that are all in the mask change nothing. -/
theorem foldl_insert_of_forall_eq {findings : Findings} {list : List Finding} {finding : Finding}
    (h : ∀ other ∈ list, other = finding) :
  list.foldl insert (findings.insert finding) = findings.insert finding
  := by
  induction list with
  | nil => rfl
  | cons first list ih =>
    obtain ⟨rfl, hlist⟩ := List.forall_mem_cons.mp h
    rw [List.foldl_cons, insert_insert, ih hlist]

/-- A mask of findings that are all the same is empty or holds that finding alone. -/
theorem ofList_of_forall_eq {list : List Finding} {finding : Finding}
    (h : ∀ other ∈ list, other = finding) :
  ofList list = ∅ ∨ ofList list = ofList [finding]
  := by
  cases list with
  | nil => exact .inl rfl
  | cons first list =>
    obtain ⟨rfl, hlist⟩ := List.forall_mem_cons.mp h
    exact .inr (foldl_insert_of_forall_eq hlist)

/-- A mask of findings of one kind is empty only if there are none. -/
theorem eq_nil_of_ofList_eq_empty {list : List Finding} (h : ∀ other ∈ list, other = .callArity)
    (hempty : ofList list = ∅) :
  list = []
  := by
  cases list with
  | nil => rfl
  | cons first list =>
    obtain ⟨rfl, hlist⟩ := List.forall_mem_cons.mp h
    have hsingle : ofList (.callArity :: list) = ofList [.callArity] :=
      foldl_insert_of_forall_eq hlist
    rw [hsingle] at hempty
    cases hempty

end Findings

/-! ### The tree of a source -/

/-- The functions with the entry in front are the functions of the program. -/
theorem Program.entryFirst_perm (program : Program) (entry : String) :
  (program.entryFirst entry).Perm program.definitions
  := Layout.toFront_perm _ _

/-- A program has a function in front. -/
theorem Program.exists_entryFirst (program : Program) (entry : String) :
  ∃ first others, program.entryFirst entry = first :: others
  := List.exists_cons_of_length_pos
    ((program.entryFirst_perm entry).length_eq ▸ Nat.succ_pos _)

/-- The tree is the layout of definitions with different names, the one that runs first in
front. -/
structure Tree.LaysOut (t : Tree) (first : Definition) (others : List Definition) : Prop where
  shows : t.unfolding.Shows (Definition.chainShape t.vars t.funcs (first :: others))
  verify : t.verify
    = .ofList ((Definition.chainShape t.vars t.funcs (first :: others)).findings t.vars t.funcs)
  findings : ∀ finding ∈
      (Definition.chainShape t.vars t.funcs (first :: others)).findings t.vars t.funcs,
    finding = .callArity
  signatures : (Definition.chainShape t.vars t.funcs (first :: others)).collect Shape.definitionAt
    = (first :: others).map (Definition.signature t.funcs)
  entered : ∀ d ∈ first :: others, d.name ∈ t.funcs.names
  nodup : ((first :: others).map (·.name)).Nodup
  finite : ∀ d ∈ first :: others, ∀ value, .number value ∈ d.leaves → value.isFinite

namespace Program.Registered

variable {program : Program} {funcs : SymbolTable}

/-- The table has the names of the defined functions and no others. -/
theorem mem_names_iff (h : program.Registered funcs) {definitions : List Definition}
    (hperm : definitions.Perm program.definitions) (name : String) :
  name ∈ funcs.names ↔ ∃ d ∈ definitions, d.name = name
  := by
  rw [← h.names, List.mem_map]
  simp only [hperm.mem_iff]

/-- All functions that a program with its functions registered calls are registered. -/
theorem allEntered (h : program.Registered funcs) {vars larger : SymbolTable} {d : Definition}
    (hd : d ∈ program.definitions) (hentered : AllEntered vars larger d.leaves) :
  AllEntered vars funcs d.leaves
  := by
  intro leaf hleaf
  cases leaf with
  | function name => apply h.called d hd name hleaf
  | _ => apply hentered _ hleaf

/-- The layout of a program with its functions registered lays out its definitions, the one that
runs first in front. -/
theorem laysOut (h : program.Registered funcs) {entry : String} {first : Definition}
    {others : List Definition} (heq : program.entryFirst entry = first :: others) :
  (program.layout entry { funcs }).LaysOut first others
  := by
  have hperm := program.entryFirst_perm entry
  have hholds := program.layout_holds entry (rfl : ({ funcs } : Tree).size = 0) rfl
  obtain ⟨⟨-, hwithin⟩, hentered⟩ := program.layout_entered entry { funcs }
  rw [heq] at hperm hholds
  have hnames := h.mem_names_iff hperm
  have hall : ∀ d ∈ first :: others,
      AllEntered (program.layout entry { funcs }).vars funcs d.leaves := by
    intro d hd
    have hmem := hperm.mem_iff.mp hd
    apply h.allEntered hmem (hentered d hmem)
  constructor
  · obtain ⟨u, hparts, hshape⟩ := hholds.single
    have hu := hparts.unfolds_single
    rw [hu.unfolding_eq, ← hshape]
    apply hu.shows
  · apply Tree.verify_eq_of_holds hholds rfl
  · apply Definition.eq_callArity_of_mem_findings hwithin hnames hall
  · apply Definition.collect_definitionAt hwithin hall
  · intro d hd
    apply hwithin.subset ((hnames d.name).mpr ⟨d, hd, rfl⟩)
  · rw [(hperm.map _).nodup_iff, h.names]
    apply h.nodup
  · intro d hd
    apply h.finite d (hperm.mem_iff.mp hd)

end Program.Registered

/-- The tree of a source lays out its definitions. -/
theorem laysOut_of_parse {source entry : String} {t : Tree}
    (h : (parse source entry).result = .ok t) :
  ∃ first others, t.LaysOut first others
  := by
  obtain ⟨program, funcs, hregistered, rfl⟩ := parse_eq_ok h
  obtain ⟨first, others, heq⟩ := program.exists_entryFirst entry
  exact ⟨first, others, hregistered.laysOut heq⟩

namespace Tree.LaysOut

variable {t : Tree} {first : Definition} {others : List Definition}

/-- The only finding in the tree of a source is a wrong number of arguments. -/
theorem verify_cases (h : t.LaysOut first others) :
  t.verify = ∅ ∨ t.verify = .ofList [.callArity]
  := by
  rw [h.verify]
  apply Findings.ofList_of_forall_eq h.findings

/-- Every call in a tree that is verified gives as many arguments as its function has parameters. -/
theorem calls_subset (h : t.LaysOut first others) (hverify : t.verify = ∅) :
  (Definition.chainShape t.vars t.funcs (first :: others)).collect Shape.callAt
    ⊆ (first :: others).map (Definition.signature t.funcs)
  := by
  rw [h.verify] at hverify
  rw [← h.signatures]
  apply Definition.collect_callAt_subset
  apply Findings.eq_nil_of_ofList_eq_empty h.findings hverify

/-- The tree of a source is finite. -/
theorem unfolds (h : t.LaysOut first others) :
  t.Unfolds t.root t.unfolding
  := unfolds_of_shows h.shows

/-- A tree of definitions has code. -/
theorem result_generate (h : t.LaysOut first others) (listing : Listing) :
  (generate t listing).result
    = .ok (listing.addCode
        (Definition.programCode t.vars t.funcs first others listing.numbering).1
        (Definition.programCode t.vars t.funcs first others listing.numbering).2)
  := by
  rw [h.unfolds.result_generate, Unfolding.lower, Lower.program_eq _ h.shows]
  rfl

end Tree.LaysOut

/-! ### Results -/

/-- Verification fails with what is found, if anything is. -/
theorem result_verifyTree (t : Tree) :
  (verifyTree t).result = if t.verify.isEmpty then .ok () else .error (.verify t.verify)
  := by
  unfold verifyTree
  dsimp only
  split <;> split <;> rfl

/-- A tree is compiled to the code that is generated for it, unless something is found. -/
theorem result_compileTree (t : Tree) :
  (compileTree t).result
    = if t.verify.isEmpty then
        (generate t {}).result.map fun listing => { tree := t, assembly := listing.text }
      else .error (.verify t.verify)
  := by
  unfold compileTree
  rw [Run.result_bind, result_verifyTree]
  split
  · apply Eq.trans (Run.result_bind _ _)
    cases (generate t {}).result <;> rfl
  · rfl

/-- Only the empty mask is empty. -/
theorem Findings.isEmpty_iff {findings : Findings} :
  findings.isEmpty ↔ findings = ∅
  := by
  rw [isEmpty, beq_iff_eq]
  apply (Findings.mk.injEq _ _).symm.to_iff

/-- A tree that is compiled is one in which verification finds nothing, and the assembly is the text
of its code. -/
theorem compileTree_eq_ok {t : Tree} {c : Compilation} (h : (compileTree t).result = .ok c) :
  t.verify = ∅ ∧ ∃ code numbering, Lower.program t.unfolding {} = .ok (code, numbering)
    ∧ c.assembly = String.join (code.map (·.text ++ "\n"))
  := by
  rw [result_compileTree] at h
  split at h
  · rename_i hempty
    have hverify := Findings.isEmpty_iff.mp hempty
    obtain ⟨u, hu⟩ := Tree.verify_eq_empty_iff.mp hverify
    rw [hu.unfolds.result_generate, Unfolding.lower] at h
    rw [hu.unfolding_eq]
    cases hcode : Lower.program u {} with
    | error error =>
      rw [hcode] at h
      cases h
    | ok result =>
      rw [hcode] at h
      cases h
      use hverify, result.1, result.2, rfl
      simp only [Listing.text, Listing.addCode, List.nil_append, List.map_map]
      rfl
  · cases h

/-- A tree that is not compiled is refused for what is found in it, or it has no code. -/
theorem compileTree_eq_error {t : Tree} {error : CompileError}
    (h : (compileTree t).result = .error error) :
  error = .verify t.verify ∧ t.verify ≠ ∅ ∨ ∃ e, error = .lower e
  := by
  rw [result_compileTree] at h
  split at h
  · rename_i hempty
    obtain ⟨u, hu⟩ := Tree.verify_eq_empty_iff.mp (Findings.isEmpty_iff.mp hempty)
    rw [hu.unfolds.result_generate] at h
    cases hlower : u.lower {} with
    | ok listing =>
      rw [hlower] at h
      cases h
    | error e =>
      rw [hlower] at h
      cases h
      exact .inr ⟨e, rfl⟩
  · rename_i hfound
    cases h
    exact .inl ⟨rfl, mt Findings.isEmpty_iff.mpr hfound⟩

/-- A source is compiled as the tree that it is parsed to. -/
theorem result_compile (source entry : String) :
  (compile source entry).result
    = (parse source entry).result >>= fun t => (compileTree t).result
  := Run.result_bind _ _

/-- A tree of definitions that is compiled is one in which verification finds nothing, and the
assembly is the text of their code. -/
theorem Tree.LaysOut.compileTree_eq_ok {t : Tree} {first : Definition} {others : List Definition}
    {c : Compilation} (hlays : t.LaysOut first others) (h : (compileTree t).result = .ok c) :
  c.tree = t ∧ t.verify = ∅
    ∧ c.assembly = String.join
        ((Definition.programCode t.vars t.funcs first others {}).1.map (·.text ++ "\n"))
  := by
  rw [result_compileTree, hlays.result_generate] at h
  rcases hlays.verify_cases with hverify | hverify
  · rw [hverify] at h
    cases h
    use rfl, hverify
    simp only [Listing.text, Listing.addCode, List.nil_append, List.map_map]
    rfl
  · rw [hverify] at h
    cases h

/-- A source that is compiled has a tree of definitions in which verification finds nothing, and the
assembly is the text of their code. -/
theorem compile_eq_ok {source entry : String} {c : Compilation}
    (h : (compile source entry).result = .ok c) :
  ∃ first others, c.tree.LaysOut first others ∧ c.tree.verify = ∅
    ∧ c.assembly = String.join
        ((Definition.programCode c.tree.vars c.tree.funcs first others {}).1.map (·.text ++ "\n"))
  := by
  rw [result_compile] at h
  obtain ⟨t, hparse, h⟩ := Parse.bind_eq_ok.mp h
  obtain ⟨first, others, hlays⟩ := laysOut_of_parse hparse
  obtain ⟨rfl, hverify, hassembly⟩ := hlays.compileTree_eq_ok h
  exact ⟨first, others, hlays, hverify, hassembly⟩

/-- One part after the other fails if the first part fails, or if it succeeds and the second part
fails. -/
theorem bind_eq_error {ε α β : Type} {x : Except ε α} {f : α → Except ε β} {e : ε} :
  x >>= f = .error e ↔ x = .error e ∨ ∃ a, x = .ok a ∧ f a = .error e
  := by
  cases x with
  | error e' => simp [bind, Except.bind]
  | ok a => simp [bind, Except.bind]

/-- An error that is wrapped comes from an error. -/
theorem mapError_eq_error {ε δ α : Type} {f : ε → δ} {x : Except ε α} {e : δ}
    (h : x.mapError f = .error e) :
  ∃ e', x = .error e' ∧ e = f e'
  := by
  cases x with
  | error e' =>
    cases h
    use e'
  | ok a => cases h

/-- A source that is not parsed cannot be scanned, or its functions cannot be registered, or its
tokens do not make up a program. -/
theorem parse_error_stages {source entry : String} {error : CompileError}
    (h : (parse source entry).result = .error error) :
  (∃ e, Token.scan source = .error e ∧ error = .scan e)
    ∨ ∃ scanned, Token.scan source = .ok scanned ∧ ∃ e, error = .parse e
      ∧ (FunctionNames.register scanned {} = .error e
        ∨ ∃ tokens funcs, FunctionNames.register scanned {} = .ok (tokens, funcs)
          ∧ Program.ofTokens funcs tokens = .error e)
  := by
  rw [result_parse] at h
  rcases bind_eq_error.mp h with h | ⟨scanned, hscan, h⟩
  · exact .inl (mapError_eq_error h)
  · refine .inr ⟨scanned, mapError_eq_ok hscan, ?_⟩
    rcases bind_eq_error.mp h with h | ⟨⟨tokens, funcs⟩, hregister, h⟩
    · obtain ⟨e, he, rfl⟩ := mapError_eq_error h
      exact ⟨e, rfl, .inl he⟩
    · rcases bind_eq_error.mp h with h | ⟨program, -, h⟩
      · obtain ⟨e, he, rfl⟩ := mapError_eq_error h
        exact ⟨e, rfl, .inr ⟨tokens, funcs, mapError_eq_ok hregister, he⟩⟩
      · cases h

/-- A source that is not parsed has an error in its text. -/
theorem parse_eq_error {source entry : String} {error : CompileError}
    (h : (parse source entry).result = .error error) :
  (∃ e, error = .scan e) ∨ ∃ e, error = .parse e
  := by
  rcases parse_error_stages h with ⟨e, -, rfl⟩ | ⟨_, -, e, rfl, -⟩
  · exact .inl ⟨e, rfl⟩
  · exact .inr ⟨e, rfl⟩

/-- The compilation of a source succeeds, or there is an error in its text, or all that verification
finds is a call that does not fit.  Every tree of a source has code. -/
theorem compile_outcomes (source entry : String) :
  ((∃ compilation, (compile source entry).result = .ok compilation)
    ∨ (∃ error, (compile source entry).result = .error (.scan error))
    ∨ (∃ error, (compile source entry).result = .error (.parse error))
    ∨ ∃ findings, (compile source entry).result = .error (.verify findings)
        ∧ findings.bits = 128)
  ∧ ∀ t, (parse source entry).result = .ok t →
      (t.verify = ∅ ∨ t.verify = .ofList [.callArity])
        ∧ ∀ listing, ∃ code, (generate t listing).result = .ok code
  := by
  constructor
  · rw [result_compile]
    cases hparse : (parse source entry).result with
    | error error =>
      rcases parse_eq_error hparse with ⟨e, rfl⟩ | ⟨e, rfl⟩
      · exact .inr (.inl ⟨e, rfl⟩)
      · exact .inr (.inr (.inl ⟨e, rfl⟩))
    | ok t =>
      obtain ⟨first, others, hlays⟩ := laysOut_of_parse hparse
      have htree := result_compileTree t
      rcases hlays.verify_cases with hverify | hverify
      · rw [hlays.result_generate, hverify] at htree
        exact .inl ⟨_, htree⟩
      · rw [hverify] at htree
        exact .inr (.inr (.inr ⟨_, htree, rfl⟩))
  · intro t hparse
    obtain ⟨first, others, hlays⟩ := laysOut_of_parse hparse
    constructor
    · apply hlays.verify_cases
    · intro listing
      exact ⟨_, hlays.result_generate listing⟩

/-- A call with an argument too many is found, and its tree has code all the same. -/
theorem compile_outcomes_excess_argument :
  ∃ t, (parse "Mellon main Black f Fellowship 1 of the Ring Precious Gates Mellon f Black Gates"
      "main").result = .ok t
    ∧ t.verify = .ofList [.callArity]
    ∧ ∃ code, (generate t {}).result = .ok code
  := by
  have hverify : (parse
      "Mellon main Black f Fellowship 1 of the Ring Precious Gates Mellon f Black Gates"
      "main").result.toOption.map Tree.verify = some (.ofList [.callArity]) := by decide +kernel
  obtain ⟨t, ht, hfindings⟩ := Option.map_eq_some_iff.mp hverify
  have hparse := eq_ok_of_toOption ht
  use t, hparse, hfindings
  apply ((compile_outcomes _ _).2 t hparse).2

end StackCompiler
