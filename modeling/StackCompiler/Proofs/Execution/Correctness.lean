import StackCompiler.Proofs.Assembly.Reading
import StackCompiler.Proofs.Execution.Functions
import StackCompiler.Proofs.Execution.Simulation

/-!
# Compilation preserves meaning

If the interpreter finishes on the tree of a source that is compiled, then the machine halts on the
code with the same store and an empty stack.
-/

namespace StackCompiler

/-- The code of a definition has its place in the code of a list of definitions. -/
theorem Definition.code_infix_codes {vars funcs : SymbolTable} {entry : Nat} {ds : List Definition}
    {d : Definition} (hd : d ∈ ds) (numbering : Numbering) :
  ∃ numbering' before after, (Definition.codes vars funcs entry ds numbering).1
    = before ++ ((d.code vars funcs entry numbering').1 ++ after)
  := by
  induction ds generalizing numbering with
  | nil => cases hd
  | cons first ds ih =>
    rw [Definition.codes]
    rcases List.mem_cons.mp hd with rfl | hd
    · exact ⟨numbering, [], _, rfl⟩
    · obtain ⟨numbering', before, after, heq⟩ := ih hd (first.code vars funcs entry numbering).2
      use numbering', (first.code vars funcs entry numbering).1 ++ before, after
      rw [heq, List.append_assoc]

section Places

variable (vars funcs : SymbolTable) (first : Definition) {others : List Definition}

/-- The code of every definition has its place in the code of a program. -/
theorem Definition.code_placed {d : Definition} (hd : d ∈ others) (numbering : Numbering) :
  ∃ numbering' after, (d.code vars funcs (funcs.intern first.name).1 numbering').1 ++ after
    <:+ (Definition.programCode vars funcs first others numbering).1
  := by
  obtain ⟨numbering', before, after, hcodes⟩ :=
    @Definition.code_infix_codes vars funcs (funcs.intern first.name).1 _ _ hd numbering
  simp only [Definition.programCode, hcodes, List.append_assoc, List.cons_append]
  exact ⟨numbering', _, .instruction (.jump .main) :: before, rfl⟩

/-- The code of the entry function stands under its label and ends the program. -/
theorem Definition.main_placed (numbering : Numbering) :
  ∃ numbering', .label .main
      :: ((Statement.codes vars funcs (funcs.intern first.name).1 first.body numbering').1
        ++ [.instruction .halt])
    <:+ (Definition.programCode vars funcs first others numbering).1
  := by
  use (Definition.codes vars funcs (funcs.intern first.name).1 others numbering).2
  simp only [Definition.programCode, List.append_assoc, List.cons_append]
  apply (List.suffix_append _ _).trans (List.suffix_cons _ _)

end Places

namespace Tree.LaysOut

variable {t : Tree} {first : Definition} {others : List Definition}

/-- If no call names the entry function, then every call is to one of the other functions. -/
theorem calls_subset_others (h : t.LaysOut first others) (hverify : t.verify = ∅)
    (hentry : (t.funcs.intern first.name).1 ∉ t.unfolding.called) :
  (Definition.chainShape t.vars t.funcs (first :: others)).collect Shape.callAt
    ⊆ others.map (Definition.signature t.funcs)
  := by
  intro call hcall
  rcases List.mem_cons.mp (h.calls_subset hverify hcall) with rfl | hmem
  · rw [h.shows.called_eq] at hentry
    cases hentry (List.mem_map_of_mem hcall)
  · apply hmem

/-- The code of a tree of definitions is linked. -/
theorem linked (h : t.LaysOut first others) (hverify : t.verify = ∅)
    (hentry : (t.funcs.intern first.name).1 ∉ t.unfolding.called) (numbering : Numbering) :
  Linked t.vars t.funcs (t.funcs.intern first.name).1 t.unfolding
    (Definition.programCode t.vars t.funcs first others numbering).1
    (others.map (Definition.signature t.funcs))
  := by
  constructor
  · apply Definition.nodup_labels_programCode h.entered h.nodup
  · intro index count body parameters hcallable hfunction
    obtain ⟨d, hd, hsignature⟩ := List.mem_map.mp hcallable
    obtain ⟨rfl, rfl⟩ := Prod.mk.inj hsignature
    obtain ⟨d', hd', hindex, hparameters, hbody⟩ := h.shows.function? hfunction
    obtain rfl := h.eq_of_index_eq hd' (List.mem_cons_of_mem _ hd) hindex
    obtain ⟨numbering', after, hplace⟩ := Definition.code_placed t.vars t.funcs first hd numbering
    use d', numbering', after, rfl, rfl, hparameters, hbody
    constructor
    · apply List.Subset.trans (Definition.collect_body_subset hd')
      apply h.calls_subset_others hverify hentry
    · apply hplace

/-- If the interpreter finishes on a tree of definitions, then the machine halts on its code. -/
theorem halts (h : t.LaysOut first others) (hverify : t.verify = ∅)
    (hentry : (t.funcs.intern first.name).1 ∉ t.unfolding.called) {V : Type} {A : Arithmetic V}
    {fuel : Nat} {store store' : Store V} (numbering : Numbering)
    (hrun : Interpret.run A t.unfolding fuel store = some store') :
  Machine.Halts A (Definition.programCode t.vars t.funcs first others numbering).1
    (.start (Definition.programCode t.vars t.funcs first others numbering).1 store) ([], store')
  := by
  have hlinked := h.linked hverify hentry numbering
  have hcalls := List.Subset.trans (Definition.collect_body_subset List.mem_cons_self)
    (h.calls_subset_others hverify hentry)
  have hshows := h.shows
  obtain ⟨numbering', hplace⟩ := @Definition.main_placed t.vars t.funcs first others numbering
  generalize t.unfolding = root at hlinked hrun hshows
  cases hshows with
  | node id hleft hright =>
    cases hleft with
    | node other hbody hparameters =>
      obtain ⟨⟨flow, final⟩, hstatements, hrun⟩ := Option.bind_eq_some_iff.mp hrun
      cases hrun
      have hcarries := (Simulated.all hlinked fuel).statements numbering' hbody hcalls hstatements
      -- The first line jumps over the functions to the entry function.
      apply Machine.Halts.jump hlinked.nodup hplace
      apply hcarries _ _ _ _ (Machine.suffix_of_cons hplace)
      cases flow with
      | next => apply Machine.Halts.of_halted rfl
      | returned => apply Machine.Halts.of_halted rfl

end Tree.LaysOut

/-- If the interpreter finishes on the tree of a source whose entry function is not called, then the
machine, started at the first line of the assembly, halts with the same store and an empty stack. -/
theorem compile_preserves_meaning {source entry : String} {c : Compilation} {index : Nat}
    (hcompile : (compile source entry).result = .ok c)
    (hentry : c.tree.unfolding.entry? = some index) (hcalled : index ∉ c.tree.unfolding.called) :
  ∃ code, assemble c.assembly = some code
    ∧ ∀ (V : Type) (A : Arithmetic V) (store store' : Store V) (fuel : Nat),
        Interpret.run A c.tree.unfolding fuel store = some store' →
        ∃ steps, Machine.run A code steps (.start code store) = some ([], store')
  := by
  obtain ⟨first, others, hlays, hverify, hassembly⟩ := compile_eq_ok hcompile
  rw [hlays.shows.entry?] at hentry
  cases hentry
  rw [hassembly]
  use (Definition.programCode c.tree.vars c.tree.funcs first others {}).1, hlays.assemble_eq {}
  intro V A store store' fuel hrun
  apply hlays.halts hverify hcalled {} hrun

/-- Integers, with operations that a program can be tried with. -/
def Arithmetic.integers : Arithmetic Int where
  number value := value.integer?.getD 0
  math _ value := value
  arithmetic op first second :=
    match op with
    | .add => first + second
    | .sub => first - second
    | .mul => first * second
    | .div => first / second
    | .pow => first ^ second.toNat
  comparison op first second :=
    let holds : Bool :=
      match op with
      | .eq => first == second
      | .gt => second < first
      | .lt => first < second
      | .ge => second ≤ first
      | .le => first ≤ second
      | .ne => first != second
    if holds then 1 else 0
  equal first second := first == second

/-- A call within the arguments of a call: the square of a square is written. -/
theorem compile_preserves_meaning_nested_call :
  ∃ c, (compile ("Mellon main Black OUT f Fellowship f Fellowship IN a of the Ring of the Ring "
      ++ "Precious Gates Mellon f Fellowship x of the Ring Black Return of the King x * x "
      ++ "Precious Gates") "main").result = .ok c
    ∧ ∃ code store steps, assemble c.assembly = some code
      ∧ Machine.run Arithmetic.integers code steps
          (.start code { slots := fun _ => 0, result := 0, input := [3], output := [] })
        = some ([], store)
      ∧ store.output = [81]
  := by
  have hcompile : (compile
      ("Mellon main Black OUT f Fellowship f Fellowship IN a of the Ring of the Ring "
      ++ "Precious Gates Mellon f Fellowship x of the Ring Black Return of the King x * x "
      ++ "Precious Gates") "main").result.toOption.map
        (fun c => (c.tree.unfolding.entry?, decide (0 ∉ c.tree.unfolding.called),
          (Interpret.run Arithmetic.integers c.tree.unfolding 20
            { slots := fun _ => 0, result := 0, input := [3], output := [] }).map
            fun store => store.output))
      = some (some 0, true, some [81]) := by
    decide +kernel
  obtain ⟨c, hc, hfacts⟩ := Option.map_eq_some_iff.mp hcompile
  obtain ⟨hentry, hfacts⟩ := Prod.mk.inj hfacts
  obtain ⟨hcalled, hrun⟩ := Prod.mk.inj hfacts
  obtain ⟨store, hrun, houtput⟩ := Option.map_eq_some_iff.mp hrun
  obtain ⟨code, hcode, hmachine⟩ :=
    compile_preserves_meaning (eq_ok_of_toOption hc) hentry (of_decide_eq_true hcalled)
  obtain ⟨steps, hsteps⟩ := hmachine Int Arithmetic.integers _ store 20 hrun
  exact ⟨c, eq_ok_of_toOption hc, code, store, steps, hcode, hsteps, houtput⟩

end StackCompiler
