import StackCompiler.Command.Run
import StackCompiler.Proofs.Compile.FrontEnds

/-!
# The command is all or nothing

A run of the command comes to one of five ends: the input cannot be read, verification refuses its
tree, the compilation fails otherwise, the tree cannot be written, or everything succeeds.  Only in
the last case is the assembly printed, which is never empty, and then the whole of it.  Files are
touched only after the compilation has succeeded.

This holds in all surroundings in which reading changes nothing.  Whatever else is printed is
printed by them: a file may be a device that prints what is written to it, and the program that
draws the picture prints what it likes.  What becomes of the picture shows there, in the log and in
the files, and nowhere else.
-/

namespace StackCompiler

/-! ### What a compilation comes to -/

/-- The code of a program begins with the jump to the entry function. -/
theorem Lower.exists_cons_of_program {u : Unfolding} {start stop : Numbering} {code : List Line}
    (h : program u start = .ok (code, stop)) :
  ∃ rest, code = .instruction (.jump .main) :: rest
  := by
  obtain ⟨_, -, h⟩ := Parse.bind_eq_ok.mp h
  obtain ⟨_, -, h⟩ := Parse.bind_eq_ok.mp h
  obtain ⟨_, -, h⟩ := Parse.bind_eq_ok.mp h
  cases h
  exact ⟨_, rfl⟩

/-- An assembly has at least the jump to the entry function. -/
theorem assembly_ne_empty {t : Tree} {c : Compilation} (h : (compileTree t).result = .ok c) :
  c.assembly ≠ ""
  := by
  obtain ⟨-, code, numbering, hprogram, hassembly⟩ := compileTree_eq_ok h
  obtain ⟨rest, rfl⟩ := Lower.exists_cons_of_program hprogram
  rw [hassembly, List.map_cons, String.join_cons]
  intro hempty
  exact absurd (String.append_eq_empty_iff.mp hempty).1 (by decide)

/-- Findings that refuse a tree are not empty. -/
theorem bits_pos_of_refused {t : Tree} {findings : Findings}
    (h : (compileTree t).result = .error (.verify findings)) :
  0 < findings.bits
  := by
  rcases compileTree_eq_error h with ⟨herror, hfound⟩ | ⟨e, herror⟩
  · cases herror
    apply Nat.pos_of_ne_zero
    intro hzero
    apply hfound
    apply Findings.isEmpty_iff.mp
    exact beq_iff_eq.mpr (BitVec.eq_of_toNat_eq hzero)
  · cases herror

/-- Reading files changes nothing. -/
def FileAccess.ReadsOnly {σ : Type} (files : FileAccess (StateM σ)) : Prop :=
  ∀ path before, ((files.read path).run before).2 = before

namespace Command

/-- The compilation of a text is that of a tree, or the text has an error. -/
theorem compileText_cases (arguments : Arguments) (source : String) :
  (∃ t, (compileText arguments source).result = (compileTree t).result)
    ∨ ∃ error, (compileText arguments source).result = .error error
      ∧ ∀ findings, error ≠ .verify findings
  := by
  unfold compileText
  split
  · have hdump : (compileDump source).result = (readTree source).result >>= fun t =>
        (compileTree t).result := Run.result_bind _ _
    rw [hdump, result_readTree]
    cases Tree.read source with
    | error error => exact .inr ⟨_, rfl, nofun⟩
    | ok t => exact .inl ⟨t, rfl⟩
  · rw [result_compile]
    cases hparse : (parse source arguments.entry).result with
    | error error =>
      refine .inr ⟨error, rfl, ?_⟩
      rcases parse_eq_error hparse with ⟨e, rfl⟩ | ⟨e, rfl⟩ <;> nofun
    | ok t => exact .inl ⟨t, rfl⟩

/-! ### What the surroundings answer -/

section Surroundings

variable {σ : Type} (files : FileAccess (StateM σ)) (arguments : Arguments) (before : σ)

/-- The input can be read, and its compilation has this result. -/
def InputGives (result : Except CompileError Compilation) : Prop :=
  ∃ source, ((files.read arguments.input).run before).1 = .ok source
    ∧ (compileText arguments source).result = result

/-- What comes of writing the tree of a compilation. -/
def dumped (compilation : Compilation) : Shown (Except FileFault Unit) × σ :=
  (files.write arguments.dump compilation.tree.dump).run before

/-- What comes of making the picture after the tree of a compilation has been written. -/
def pictured (compilation : Compilation) : Shown Unit × σ :=
  (draw files arguments compilation.tree).run (dumped files arguments before compilation).2

/-- What is printed while the picture is made.  This is nothing if the run does not come so far. -/
def printedByPicture : String :=
  match ((files.read arguments.input).run before).1 with
  | .error _ => ""
  | .ok source =>
    match (compileText arguments source).result with
    | .error _ => ""
    | .ok compilation =>
      match (dumped files arguments before compilation).1.value with
      | .error _ => ""
      | .ok () => (pictured files arguments before compilation).1.output

/-- Nothing is printed while the tree is written and while the picture is made. -/
def Silent : Prop :=
  printedByPicture files arguments before = ""
    ∧ ∀ compilation, InputGives files arguments before (.ok compilation) →
        (dumped files arguments before compilation).1.output = ""

end Surroundings

variable {σ : Type} {files : FileAccess (StateM σ)} {arguments : Arguments} {before : σ}

namespace InputGives

variable {result result' : Except CompileError Compilation} {compilation : Compilation}

/-- An input has one result. -/
theorem unique (h : InputGives files arguments before result)
    (h' : InputGives files arguments before result') :
  result = result'
  := by
  obtain ⟨source, hread, rfl⟩ := h
  obtain ⟨source', hread', rfl⟩ := h'
  cases hread.symm.trans hread'
  rfl

/-- The assembly of an input is not empty. -/
theorem assembly_ne_empty (h : InputGives files arguments before (.ok compilation)) :
  compilation.assembly ≠ ""
  := by
  obtain ⟨source, -, hresult⟩ := h
  rcases compileText_cases arguments source with ⟨t, ht⟩ | ⟨error, herror, -⟩
  · exact StackCompiler.assembly_ne_empty (ht.symm.trans hresult)
  · cases herror.symm.trans hresult

/-- Findings that refuse the tree of an input are not empty. -/
theorem bits_pos {findings : Findings}
    (h : InputGives files arguments before (.error (.verify findings))) :
  0 < findings.bits
  := by
  obtain ⟨source, -, hresult⟩ := h
  rcases compileText_cases arguments source with ⟨t, ht⟩ | ⟨error, herror, hne⟩
  · exact bits_pos_of_refused (ht.symm.trans hresult)
  · cases herror.symm.trans hresult
    cases hne findings rfl

end InputGives

/-- The input cannot be read, or its tree is refused, or its compilation fails otherwise, or it is
compiled. -/
theorem input_cases (files : FileAccess (StateM σ)) (arguments : Arguments) (before : σ) :
  (∃ fault, ((files.read arguments.input).run before).1 = .error fault)
    ∨ (∃ findings, InputGives files arguments before (.error (.verify findings)))
    ∨ (∃ error, InputGives files arguments before (.error error)
        ∧ ∀ findings, error ≠ .verify findings)
    ∨ ∃ compilation, InputGives files arguments before (.ok compilation)
  := by
  cases hread : ((files.read arguments.input).run before).1 with
  | error fault => exact .inl ⟨fault, rfl⟩
  | ok source =>
    right
    cases hresult : (compileText arguments source).result with
    | ok compilation => exact .inr (.inr ⟨compilation, source, hread, hresult⟩)
    | error error =>
      cases error with
      | verify findings => exact .inl ⟨findings, source, hread, hresult⟩
      | _ => exact .inr (.inl ⟨_, ⟨source, hread, hresult⟩, nofun⟩)

/-! ### The five ends of a run -/

section Ends

variable {compilation : Compilation} {fault : FileFault}

/-- What comes next starts where the first part has left the surroundings. -/
theorem run_bind {α β : Type} (first : StateM σ α) (next : α → StateM σ β) :
  (first >>= next).run before = (next (first.run before).1).run (first.run before).2
  := rfl

/-- If the input is compiled, then the picture is made exactly if the tree can be written. -/
theorem printedByPicture_of_inputGives
    (hinput : InputGives files arguments before (.ok compilation)) :
  printedByPicture files arguments before
    = match (dumped files arguments before compilation).1.value with
      | .error _ => ""
      | .ok () => (pictured files arguments before compilation).1.output
  := by
  obtain ⟨source, hsource, hresult⟩ := hinput
  unfold printedByPicture
  rw [hsource]
  dsimp only
  rw [hresult]

variable (hread : files.ReadsOnly)

include hread

/-- An input that cannot be read ends the run. -/
theorem run_of_unreadable (hfault : ((files.read arguments.input).run before).1 = .error fault) :
  ∃ errors, (run files arguments).run before = ({ ending := .exit 1, errors }, before)
  := by
  rw [run, run_bind, hread, hfault]
  exact ⟨_, rfl⟩

/-- A tree that is refused ends the run with what is found in it. -/
theorem run_of_refused {findings : Findings}
    (hinput : InputGives files arguments before (.error (.verify findings))) :
  ∃ errors, (run files arguments).run before = ({ ending := .exit findings.bits, errors }, before)
  := by
  obtain ⟨source, hsource, hresult⟩ := hinput
  rw [run, run_bind, hread, hsource]
  dsimp only
  rw [hresult]
  exact ⟨_, rfl⟩

/-- Any other error of the compilation aborts the run. -/
theorem run_of_failed {error : CompileError}
    (hinput : InputGives files arguments before (.error error))
    (herror : ∀ findings, error ≠ .verify findings) :
  ∃ errors, (run files arguments).run before = ({ ending := .abort, errors }, before)
  := by
  obtain ⟨source, hsource, hresult⟩ := hinput
  rw [run, run_bind, hread, hsource]
  dsimp only
  rw [hresult]
  cases error with
  | verify findings => cases herror findings rfl
  | _ => exact ⟨_, rfl⟩

/-- A tree that cannot be written ends the run. -/
theorem run_of_unwritable (hinput : InputGives files arguments before (.ok compilation))
    (hwrite : (dumped files arguments before compilation).1.value = .error fault) :
  ∃ errors, (run files arguments).run before
    = ({ ending := .exit 1
         output := (dumped files arguments before compilation).1.output
         errors },
        (dumped files arguments before compilation).2)
  := by
  obtain ⟨source, hsource, hresult⟩ := hinput
  rw [run, run_bind, hread, hsource]
  dsimp only
  rw [hresult]
  dsimp only
  rw [run_bind]
  unfold dumped at hwrite ⊢
  rw [hwrite]
  exact ⟨_, rfl⟩

/-- If the tree can be written, then the assembly is printed after all that is printed before. -/
theorem run_of_written (hinput : InputGives files arguments before (.ok compilation))
    (hwrite : (dumped files arguments before compilation).1.value = .ok ()) :
  ∃ errors after, (run files arguments).run before
    = ({ ending := .exit 0
         output := (dumped files arguments before compilation).1.output
           ++ (pictured files arguments before compilation).1.output
           ++ compilation.assembly
         errors },
        after)
  := by
  obtain ⟨source, hsource, hresult⟩ := hinput
  rw [run, run_bind, hread, hsource]
  dsimp only
  rw [hresult]
  dsimp only
  rw [run_bind]
  unfold pictured
  unfold dumped at hwrite ⊢
  rw [hwrite]
  exact ⟨_, _, rfl⟩

end Ends

/-! ### What follows for the status, the output and the files -/

/-- What the status, the output and the files after a run say about the input: the output ends with
the whole assembly or has nothing of it, and the files are as they were unless the input is
compiled. -/
structure AllOrNothing (files : FileAccess (StateM σ)) (arguments : Arguments) (before : σ)
    (outcome : Outcome) (after : σ) : Prop where
  /-- The status is zero exactly if the input can be read and compiled and the tree can be
  written. -/
  status_zero : outcome.ending = .exit 0 ↔ ∃ compilation,
    InputGives files arguments before (.ok compilation)
      ∧ (dumped files arguments before compilation).1.value = .ok ()
  /-- If the input is compiled, then the output is what is printed while the tree is written and the
  picture is made, and after it the assembly exactly if the status is zero. -/
  output : ∀ compilation, InputGives files arguments before (.ok compilation) →
    outcome.output
      = (dumped files arguments before compilation).1.output
        ++ printedByPicture files arguments before
        ++ if outcome.ending = .exit 0 then compilation.assembly else ""
  /-- If the input is not compiled, then the output is empty. -/
  output_empty : (∀ compilation, ¬ InputGives files arguments before (.ok compilation)) →
    outcome.output = ""
  /-- If nothing else is printed, then the output is the assembly exactly if the status is zero, and
  empty exactly if it is not. -/
  silent : Silent files arguments before →
    (∀ compilation, InputGives files arguments before (.ok compilation) →
      (outcome.output = compilation.assembly ↔ outcome.ending = .exit 0))
    ∧ (outcome.output = "" ↔ outcome.ending ≠ .exit 0)
  /-- An input that cannot be read gives the status one. -/
  unreadable : ∀ fault, ((files.read arguments.input).run before).1 = .error fault →
    outcome.ending = .exit 1 ∧ after = before
  /-- An input whose tree is refused gives the findings as the status, which is not zero. -/
  refused : ∀ findings, InputGives files arguments before (.error (.verify findings)) →
    outcome.ending = .exit findings.bits ∧ 0 < findings.bits ∧ findings.bits < 256
      ∧ after = before
  /-- An input with any other error aborts the command. -/
  failed : ∀ error, InputGives files arguments before (.error error) →
    (∀ findings, error ≠ .verify findings) → outcome.ending = .abort ∧ after = before
  /-- A tree that cannot be written gives the status one, and nothing is done after that. -/
  unwritable : ∀ compilation fault, InputGives files arguments before (.ok compilation) →
    (dumped files arguments before compilation).1.value = .error fault →
    outcome.ending = .exit 1 ∧ after = (dumped files arguments before compilation).2

section AllOrNothing

variable {outcome : Outcome} {after : σ} (hread : files.ReadsOnly)
  (hrun : (run files arguments).run before = (outcome, after))

include hread hrun

/-- The status is zero exactly if the input is compiled and its tree is written. -/
theorem status_zero_iff :
  outcome.ending = .exit 0 ↔ ∃ compilation, InputGives files arguments before (.ok compilation)
    ∧ (dumped files arguments before compilation).1.value = .ok ()
  := by
  constructor
  · intro hzero
    rcases input_cases files arguments before with
      ⟨fault, hfault⟩ | ⟨findings, hinput⟩ | ⟨error, hinput, herror⟩ | ⟨compilation, hinput⟩
    · obtain ⟨errors, heq⟩ := run_of_unreadable hread hfault
      cases hrun.symm.trans heq
      cases hzero
    · obtain ⟨errors, heq⟩ := run_of_refused hread hinput
      cases hrun.symm.trans heq
      cases hinput.bits_pos.ne' (Ending.exit.inj hzero)
    · obtain ⟨errors, heq⟩ := run_of_failed hread hinput herror
      cases hrun.symm.trans heq
      cases hzero
    · refine ⟨compilation, hinput, ?_⟩
      cases hwrite : (dumped files arguments before compilation).1.value with
      | ok written => rfl
      | error fault =>
        obtain ⟨errors, heq⟩ := run_of_unwritable hread hinput hwrite
        cases hrun.symm.trans heq
        cases hzero
  · rintro ⟨compilation, hinput, hwrite⟩
    obtain ⟨errors, after', heq⟩ := run_of_written hread hinput hwrite
    cases hrun.symm.trans heq
    rfl

/-- The output of a run whose input is compiled, in the order in which it is printed. -/
theorem output_eq {compilation : Compilation}
    (hinput : InputGives files arguments before (.ok compilation)) :
  outcome.output
    = (dumped files arguments before compilation).1.output
      ++ printedByPicture files arguments before
      ++ if outcome.ending = .exit 0 then compilation.assembly else ""
  := by
  rw [printedByPicture_of_inputGives hinput]
  cases hwrite : (dumped files arguments before compilation).1.value with
  | ok written =>
    obtain ⟨errors, after', heq⟩ := run_of_written hread hinput hwrite
    cases hrun.symm.trans heq
    rw [if_pos rfl]
  | error fault =>
    obtain ⟨errors, heq⟩ := run_of_unwritable hread hinput hwrite
    cases hrun.symm.trans heq
    rw [if_neg nofun]
    simp only [String.append_empty]

/-- If the input is not compiled, then nothing is printed. -/
theorem output_eq_empty
    (hnone : ∀ compilation, ¬ InputGives files arguments before (.ok compilation)) :
  outcome.output = ""
  := by
  rcases input_cases files arguments before with
    ⟨fault, hfault⟩ | ⟨findings, hinput⟩ | ⟨error, hinput, herror⟩ | ⟨compilation, hinput⟩
  · obtain ⟨errors, heq⟩ := run_of_unreadable hread hfault
    cases hrun.symm.trans heq
    rfl
  · obtain ⟨errors, heq⟩ := run_of_refused hread hinput
    cases hrun.symm.trans heq
    rfl
  · obtain ⟨errors, heq⟩ := run_of_failed hread hinput herror
    cases hrun.symm.trans heq
    rfl
  · cases hnone compilation hinput

/-- If nothing else is printed, then the output is the assembly or nothing, and the status says
which. -/
theorem output_of_silent (hsilent : Silent files arguments before) :
  (∀ compilation, InputGives files arguments before (.ok compilation) →
      (outcome.output = compilation.assembly ↔ outcome.ending = .exit 0))
    ∧ (outcome.output = "" ↔ outcome.ending ≠ .exit 0)
  := by
  obtain ⟨hpicture, hdump⟩ := hsilent
  have houtput : ∀ compilation, InputGives files arguments before (.ok compilation) →
      outcome.output = if outcome.ending = .exit 0 then compilation.assembly else "" := by
    intro compilation hinput
    rw [output_eq hread hrun hinput, hdump compilation hinput, hpicture, String.empty_append,
      String.empty_append]
  constructor
  · intro compilation hinput
    rw [houtput compilation hinput]
    by_cases hzero : outcome.ending = .exit 0
    · rw [if_pos hzero]
      exact iff_of_true rfl hzero
    · rw [if_neg hzero]
      exact iff_of_false hinput.assembly_ne_empty.symm hzero
  · constructor
    · intro hempty hzero
      obtain ⟨compilation, hinput, -⟩ := (status_zero_iff hread hrun).mp hzero
      rw [houtput compilation hinput, if_pos hzero] at hempty
      exact hinput.assembly_ne_empty hempty
    · intro hnot
      by_cases hcompiled : ∃ compilation, InputGives files arguments before (.ok compilation)
      · obtain ⟨compilation, hinput⟩ := hcompiled
        rw [houtput compilation hinput, if_neg hnot]
      · exact output_eq_empty hread hrun (not_exists.mp hcompiled)

/-- Every run is all or nothing. -/
theorem allOrNothing_of_run :
  AllOrNothing files arguments before outcome after
  where
  status_zero := status_zero_iff hread hrun
  output _ hinput := output_eq hread hrun hinput
  output_empty := output_eq_empty hread hrun
  silent := output_of_silent hread hrun
  unreadable fault hfault := by
    obtain ⟨errors, heq⟩ := run_of_unreadable hread hfault
    cases hrun.symm.trans heq
    exact ⟨rfl, rfl⟩
  refused findings hinput := by
    obtain ⟨errors, heq⟩ := run_of_refused hread hinput
    cases hrun.symm.trans heq
    exact ⟨rfl, hinput.bits_pos, findings.mask.isLt, rfl⟩
  failed error hinput herror := by
    obtain ⟨errors, heq⟩ := run_of_failed hread hinput herror
    cases hrun.symm.trans heq
    exact ⟨rfl, rfl⟩
  unwritable compilation fault hinput hwrite := by
    obtain ⟨errors, heq⟩ := run_of_unwritable hread hinput hwrite
    cases hrun.symm.trans heq
    exact ⟨rfl, rfl⟩

end AllOrNothing

/-! ### Pictures -/

/-- How a run ends does not depend on the picture. -/
theorem AllOrNothing.ending_eq {outcome : Outcome} {after : σ}
    (h : AllOrNothing files arguments before outcome after) {image : Option String}
    {outcome' : Outcome} {after' : σ}
    (h' : AllOrNothing files { arguments with image } before outcome' after') :
  outcome'.ending = outcome.ending
  := by
  rcases input_cases files arguments before with
    ⟨fault, hfault⟩ | ⟨findings, hinput⟩ | ⟨error, hinput, herror⟩ | ⟨compilation, hinput⟩
  · rw [(h.unreadable fault hfault).1, (h'.unreadable fault hfault).1]
  · rw [(h.refused findings hinput).1, (h'.refused findings hinput).1]
  · rw [(h.failed error hinput herror).1, (h'.failed error hinput herror).1]
  · cases hwrite : (dumped files arguments before compilation).1.value with
    | ok written =>
      rw [h.status_zero.mpr ⟨compilation, hinput, hwrite⟩,
        h'.status_zero.mpr ⟨compilation, hinput, hwrite⟩]
    | error fault =>
      rw [(h.unwritable compilation fault hinput hwrite).1,
        (h'.unwritable compilation fault hinput hwrite).1]

/-- If the input is not compiled, then no picture is made. -/
theorem printedByPicture_eq_empty
    (hnone : ∀ compilation, ¬ InputGives files arguments before (.ok compilation)) :
  printedByPicture files arguments before = ""
  := by
  unfold printedByPicture
  cases hsource : ((files.read arguments.input).run before).1 with
  | error fault => rfl
  | ok source =>
    dsimp only
    cases hresult : (compileText arguments source).result with
    | error error => rfl
    | ok compilation => cases hnone compilation ⟨source, hsource, hresult⟩

/-- What is printed depends on the picture only in what is printed while it is made. -/
theorem AllOrNothing.exists_output_eq {outcome : Outcome} {after : σ}
    (h : AllOrNothing files arguments before outcome after) :
  ∃ start rest, ∀ {image outcome' after'},
    AllOrNothing files { arguments with image } before outcome' after' →
    outcome'.output = start ++ printedByPicture files { arguments with image } before ++ rest
  := by
  by_cases hcompiled : ∃ compilation, InputGives files arguments before (.ok compilation)
  · obtain ⟨compilation, hinput⟩ := hcompiled
    use (dumped files arguments before compilation).1.output,
      if outcome.ending = .exit 0 then compilation.assembly else ""
    intro image outcome' after' h'
    rw [h'.output compilation hinput, h.ending_eq h']
    rfl
  · have hnone := not_exists.mp hcompiled
    use "", ""
    intro image outcome' after' h'
    have hpicture : printedByPicture files { arguments with image } before = "" :=
      printedByPicture_eq_empty hnone
    rw [h'.output_empty hnone, hpicture]
    rfl

/-- A request to compile is answered with the whole assembly or with nothing of it, after what is
printed while the tree is written and the picture is made.  Another choice of a picture changes
nothing in the status and nothing in the output but what is printed while the picture is made. -/
theorem answer_allOrNothing {σ : Type} {files : FileAccess (StateM σ)} (hread : files.ReadsOnly)
    (arguments : Arguments) (before : σ) :
  ∃ outcome after,
    (answer files (.compile arguments)).run before = (outcome, after)
      ∧ AllOrNothing files arguments before outcome after
      ∧ ∃ start rest, ∀ image, ∃ errors after',
        (answer files (.compile { arguments with image })).run before
          = ({ ending := outcome.ending
               output := start ++ printedByPicture files { arguments with image } before ++ rest
               errors },
              after')
  := by
  have hall := allOrNothing_of_run hread (rfl : (run files arguments).run before = _)
  obtain ⟨start, rest, houtput⟩ := hall.exists_output_eq
  refine ⟨_, _, rfl, hall, start, rest, fun image => ?_⟩
  cases hrun : (run files { arguments with image }).run before with
  | mk outcome' after' =>
    have hall' := allOrNothing_of_run hread hrun
    refine ⟨outcome'.errors, after', hrun.trans ?_⟩
    rw [← hall.ending_eq hall', ← houtput hall']

/-- A program that prints a number. -/
def numberProgram : String := "Mellon main Black OUT 1 Precious Gates"

/-- The assembly of the program. -/
def numberAssembly : String := "    jmp :main\n:main\n    PUSH 1\n    OUT\n    hlt\n"

/-- A directory that holds the program. -/
def numberDirectory : Directory := { files := [(["number"], .text numberProgram)] }

/-- Access to a directory and to a program that draws nothing, prints so and fails. -/
def failingDrawing : FileAccess (StateM Directory) :=
  { Directory.access with
    draw := fun _ _ => return { value := .failed "exit status: 1", output := "no picture\n" } }

/-- A drawing that fails leaves the status and the assembly as they are. -/
theorem answer_allOrNothing_failingDrawing :
  failingDrawing.ReadsOnly
    ∧ ∃ outcome after,
      (answer failingDrawing (.compile { input := "number", image := some "number.png" })).run
          numberDirectory = (outcome, after)
      ∧ outcome.ending = .exit 0 ∧ outcome.output = "no picture\n" ++ numberAssembly
  := by
  have hread : failingDrawing.ReadsOnly := fun _ _ => rfl
  obtain ⟨outcome, after, hanswer, hall, -⟩ :=
    answer_allOrNothing hread { input := "number", image := some "number.png" } numberDirectory
  generalize harguments :
    ({ input := "number", image := some "number.png" } : Arguments) = arguments at *
  have hsource : ((failingDrawing.read arguments.input).run numberDirectory).1
      = .ok numberProgram := by
    subst harguments
    apply eq_ok_of_toOption
    decide +kernel
  have hfacts : (compileText arguments numberProgram).result.toOption.map (fun c =>
      (c.assembly, (dumped failingDrawing arguments numberDirectory c).1.value.toOption,
        (dumped failingDrawing arguments numberDirectory c).1.output,
        printedByPicture failingDrawing arguments numberDirectory))
      = some (numberAssembly, some (), "", "no picture\n") := by
    subst harguments
    decide +kernel
  obtain ⟨compilation, hcompilation, hfacts⟩ := Option.map_eq_some_iff.mp hfacts
  simp only [Prod.mk.injEq] at hfacts
  obtain ⟨hassembly, hvalue, hprinted, hpicture⟩ := hfacts
  have hinput : InputGives failingDrawing arguments numberDirectory (.ok compilation) :=
    ⟨numberProgram, hsource, eq_ok_of_toOption hcompilation⟩
  have hzero := hall.status_zero.mpr ⟨compilation, hinput, eq_ok_of_toOption hvalue⟩
  refine ⟨hread, outcome, after, hanswer, hzero, ?_⟩
  rw [hall.output compilation hinput, hprinted, hpicture, if_pos hzero, hassembly]
  rfl

/-- A tree that is written to the device for output is printed before the assembly. -/
theorem answer_not_allOrNothing_outputDevice :
  ∃ outcome after compilation,
    (answer Directory.access (.compile { input := "number", dump := "/dev/stdout" })).run
        numberDirectory = (outcome, after)
      ∧ InputGives Directory.access { input := "number", dump := "/dev/stdout" } numberDirectory
          (.ok compilation)
      ∧ outcome.ending = .exit 0
      ∧ outcome.output ≠ "" ∧ outcome.output ≠ compilation.assembly
  := by
  have hcompiled : (compileText { input := "number", dump := "/dev/stdout" }
      numberProgram).result.toOption.map (·.assembly) = some numberAssembly := by
    decide +kernel
  obtain ⟨compilation, hcompilation, hassembly⟩ := Option.map_eq_some_iff.mp hcompiled
  have hsource : (numberDirectory.read "number").toOption = some numberProgram := by
    decide +kernel
  refine ⟨_, _, compilation, rfl,
    ⟨numberProgram, eq_ok_of_toOption hsource, eq_ok_of_toOption hcompilation⟩, ?_⟩
  rw [hassembly]
  decide +kernel

end Command

end StackCompiler
