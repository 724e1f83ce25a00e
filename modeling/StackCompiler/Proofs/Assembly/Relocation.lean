import StackCompiler.Proofs.Assembly.Reach
import StackCompiler.Proofs.Assembly.Reading

/-!
# Relocation

Code may be added to a listing in which branches and loops have been numbered before.  The numbering
to go on with occurs in the code in one way only: every branch and every loop takes its number from
it.  So the code is the one that a fresh listing gets, with all numbers of branches and loops moved
up by those that were taken, and whether there is code does not depend on the listing.  This is a
relation between the work on two listings that is kept by everything the generator does.

The text of such code can be made from the text of the code in a fresh listing: wherever the label
of a branch or a loop stands, its number is replaced.
-/

namespace StackCompiler

/-! ### Code -/

/-- The numbering after as many branches and loops as `offset` has were numbered before. -/
def Numbering.shift (offset numbering : Numbering) : Numbering where
  branches := offset.branches + numbering.branches
  loops := offset.loops + numbering.loops

/-- The label with its number moved up, if it is that of a branch or a loop. -/
def Label.relocate (offset : Numbering) : Label → Label
  | .branchFalse number => .branchFalse (offset.branches + number)
  | .branchTrue number => .branchTrue (offset.branches + number)
  | .loopTrue number => .loopTrue (offset.loops + number)
  | .loopFalse number => .loopFalse (offset.loops + number)
  | label => label

/-- The instruction with its label relocated. -/
def Instruction.relocate (offset : Numbering) : Instruction → Instruction
  | .jump target => .jump (target.relocate offset)
  | .jumpIfEqual target => .jumpIfEqual (target.relocate offset)
  | .call target => .call (target.relocate offset)
  | i => i

/-- The line with its label relocated. -/
def Line.relocate (offset : Numbering) : Line → Line
  | .instruction i => .instruction (i.relocate offset)
  | .label l => .label (l.relocate offset)

/-- A label without a number stays. -/
theorem Label.relocate_eq_self (offset : Numbering) {l : Label} (h : l.isNumbered = false) :
  l.relocate offset = l
  := by
  cases l with
  | main => rfl
  | function index => rfl
  | _ => cases h

/-- An instruction without a number stays. -/
theorem Instruction.relocate_eq_self (offset : Numbering) {i : Instruction}
    (h : i.isNumbered = false) :
  i.relocate offset = i
  := by
  cases i with
  | jump target => rw [relocate, Label.relocate_eq_self offset h]
  | jumpIfEqual target => rw [relocate, Label.relocate_eq_self offset h]
  | call target => rw [relocate, Label.relocate_eq_self offset h]
  | _ => rfl

/-- Code that is added after code is one piece of code. -/
theorem Listing.addCode_addCode (listing : Listing) (code code' : List Line)
    (numbering numbering' : Numbering) :
  (listing.addCode code numbering).addCode code' numbering'
    = listing.addCode (code ++ code') numbering'
  := by
  simp only [addCode, List.map_append, List.append_assoc]

/-! ### Emission -/

namespace Emit

variable {offset : Numbering} {α : Type}

/-- What comes of the same work on two listings: the same error, or the same value and code that
differs in its numbers only. -/
inductive Moved (offset : Numbering) (before before' : Listing) :
    Except CompileError (α × Listing) → Except CompileError (α × Listing) → Prop where
  | error (error : CompileError) : Moved offset before before' (.error error) (.error error)
  | ok (a : α) (code : List Line) (numbering : Numbering) :
      Moved offset before before' (.ok (a, before.addCode code numbering))
        (.ok (a, before'.addCode (code.map (Line.relocate offset)) (offset.shift numbering)))

/-- Where the numberings of two listings differ by `offset`, two pieces of work add the same code to
them, relocated in the second one. -/
def Moves (offset : Numbering) (α : Type) (m m' : Emit α) : Prop :=
  ∀ before before' : Listing, before'.numbering = offset.shift before.numbering →
    Moved offset before before' (m.outcome before) (m'.outcome before')

namespace Moved

variable {before before' : Listing} {outcome outcome' : Except CompileError (α × Listing)}

/-- What is moved behind code that is moved is moved together with it. -/
theorem after {code : List Line} {numbering : Numbering}
    (h : Moved offset (before.addCode code numbering)
      (before'.addCode (code.map (Line.relocate offset)) (offset.shift numbering))
      outcome outcome') :
  Moved offset before before' outcome outcome'
  := by
  cases h with
  | error error => exact .error error
  | ok a code' numbering' =>
    rw [Listing.addCode_addCode, Listing.addCode_addCode, ← List.map_append]
    exact .ok a (code ++ code') numbering'

/-- What is moved does not depend on the numbers that the listings had. -/
theorem renumbered {numbering numbering' : Numbering}
    (h : Moved offset { before with numbering } { before' with numbering := numbering' }
      outcome outcome') :
  Moved offset before before' outcome outcome'
  := by
  cases h with
  | error error => exact .error error
  | ok a code next => exact .ok a code next

end Moved

namespace Moves

/-- To return a value adds no code to either listing. -/
theorem pure (a : α) :
  Moves offset α (pure a) (pure a)
  := by
  intro before before' h
  have hsame : ∀ listing : Listing, listing.addCode [] listing.numbering = listing := by
    intro listing
    simp only [Listing.addCode, List.map_nil, List.append_nil]
  have hmoved : Moved offset before before' _ _ := .ok a [] before.numbering
  rwa [hsame, List.map_nil, ← h, hsame] at hmoved

/-- Work after other work moves the numbers if both parts do. -/
theorem bind {β : Type} {m m' : Emit α} {k k' : α → Emit β} (h : Moves offset α m m')
    (hk : ∀ a, Moves offset β (k a) (k' a)) :
  Moves offset β (m >>= k) (m' >>= k')
  := by
  intro before before' hbefore
  rw [outcome_bind, outcome_bind]
  have hmoved := h before before' hbefore
  generalize m.outcome before = outcome, m'.outcome before' = outcome' at hmoved
  cases hmoved with
  | error error => exact .error error
  | ok a code numbering => exact (hk a _ _ rfl).after

/-- An instruction and the one with its number moved up are added at the same place. -/
theorem instruction (i : Instruction) :
  Moves offset Unit (instruction i) (instruction (i.relocate offset))
  := by
  intro before before' h
  have hmoved : Moved offset before before' _ _ := .ok () [.instruction i] before.numbering
  rwa [← h] at hmoved

/-- A label and the one with its number moved up are added at the same place. -/
theorem label (l : Label) :
  Moves offset Unit (label l) (label (l.relocate offset))
  := by
  intro before before' h
  have hmoved : Moved offset before before' _ _ := .ok () [.label l] before.numbering
  rwa [← h] at hmoved

/-- The numbers that two branches take differ by the offset. -/
theorem takeBranch {k k' : Nat → Emit α}
    (hk : ∀ number, Moves offset α (k number) (k' (offset.branches + number))) :
  Moves offset α (modifyGet Listing.takeBranch >>= k) (modifyGet Listing.takeBranch >>= k')
  := by
  intro before before' h
  have hnumber : before'.numbering.branches = offset.branches + before.numbering.branches :=
    congrArg Numbering.branches h
  have hnext := hk before.numbering.branches before.takeBranch.2 before'.takeBranch.2 (by
    simp only [Listing.takeBranch, h, Numbering.shift, Nat.add_assoc])
  rw [← hnumber] at hnext
  exact hnext.renumbered

/-- The numbers that two loops take differ by the offset. -/
theorem takeLoop {k k' : Nat → Emit α}
    (hk : ∀ number, Moves offset α (k number) (k' (offset.loops + number))) :
  Moves offset α (modifyGet Listing.takeLoop >>= k) (modifyGet Listing.takeLoop >>= k')
  := by
  intro before before' h
  have hnumber : before'.numbering.loops = offset.loops + before.numbering.loops :=
    congrArg Numbering.loops h
  have hnext := hk before.numbering.loops before.takeLoop.2 before'.takeLoop.2 (by
    simp only [Listing.takeLoop, h, Numbering.shift, Nat.add_assoc])
  rw [← hnumber] at hnext
  exact hnext.renumbered

end Moves

/-- All that the generator does moves with the numbering. -/
theorem moves_compatible (offset : Numbering) :
  Compatible (Moves offset)
  where
  pure := .pure
  bind := .bind
  fail error _ _ _ := .error (.lower error)
  report _ := .pure ()
  instruction {i} hi := by
    have hmoves : Moves offset Unit _ _ := .instruction i
    rwa [Instruction.relocate_eq_self offset hi] at hmoves
  label {l} hl := by
    have hmoves : Moves offset Unit _ _ := .label l
    rwa [Label.relocate_eq_self offset hl] at hmoves
  branch := by
    intro condition condition' consequence consequence' alternative alternative' hcondition
      hconsequence halternative
    refine .takeBranch fun number => ?_
    refine .bind hcondition fun _ => ?_
    refine .bind (.instruction _) fun _ => ?_
    refine .bind (.instruction _) fun _ => ?_
    refine .bind hconsequence fun _ => ?_
    refine .bind (.instruction _) fun _ => ?_
    refine .bind (.label _) fun _ => ?_
    exact .bind halternative fun _ => .label _
  loop := by
    intro condition condition' body body' hcondition hbody
    refine .takeLoop fun number => ?_
    refine .bind (.label _) fun _ => ?_
    refine .bind hcondition fun _ => ?_
    refine .bind (.instruction _) fun _ => ?_
    refine .bind (.instruction _) fun _ => ?_
    refine .bind hbody fun _ => ?_
    exact .bind (.instruction _) fun _ => .label _

end Emit

/-! ### Text -/

namespace Text

/-- The number after a stem at the front of a text, and the length of both. -/
def numberAt? (stem : String) (text : List Char) : Option (Nat × Nat) := do
  let rest ← text.dropPrefix? stem.toList
  let digits := rest.takeWhile Char.isDigit
  let number ← natural? digits
  return (number, stem.toList.length + digits.length)

/-- The stems of the labels of branches and loops, with the part of an offset by which their numbers
are moved. -/
def numberedStems : List (String × (Numbering → Nat)) :=
  [(":if_false_label", Numbering.branches), (":if_true_label", Numbering.branches),
    (":while_true_label", Numbering.loops), (":while_false_label", Numbering.loops)]

/-- What replaces the label of a branch or a loop at the front of a text, and the length of that
label. -/
def relocatedLabel? (offset : Numbering) (text : List Char) : Option (String × Nat) :=
  numberedStems.findSome? fun (stem, part) =>
    (numberAt? stem text).map fun (number, length) =>
      (stem ++ toString (number + part offset), length)

/-- The text with the number `n` of every label of a branch replaced by `n + offset.branches`, and
that of every label of a loop by `n + offset.loops`. -/
def relocateChars (offset : Numbering) : List Char → List Char
  | [] => []
  | c :: text =>
    match relocatedLabel? offset (c :: text) with
    | some (label, length) => label.toList ++ relocateChars offset (text.drop (length - 1))
    | none => c :: relocateChars offset text
termination_by text => text.length
decreasing_by all_goals (simp only [List.length_cons, List.length_drop]; omega)

/-- The text with all numbers of branches and loops moved up. -/
def relocate (offset : Numbering) (text : String) : String :=
  String.ofList (relocateChars offset text.toList)

variable {offset : Numbering} {text : List Char}

/-- A stem with a number is read up to the last digit of the number. -/
theorem numberAt?_append (stem : String) (number : Nat) (htext : ∀ c ∈ text.head?, ¬ c.isDigit) :
  numberAt? stem ((stem ++ toString number).toList ++ text)
    = some (number, (stem ++ toString number).toList.length)
  := by
  have hdigits : ∀ c ∈ Nat.toDigits 10 number, c.isDigit :=
    fun c => Nat.isDigit_of_mem_toDigits (by decide) (by decide)
  rw [toList_append_toString, List.append_assoc, numberAt?,
    List.dropPrefix?_append_of_beq _ (beq_self_eq_true _), Option.bind_eq_bind, Option.bind_some,
    takeWhile_append_of_head? hdigits htext]
  dsimp only
  rw [natural?_toDigits, List.length_append]
  rfl

/-- A stem that differs from another one does not stand where the other one does. -/
theorem numberAt?_append_eq_none {stem : List Char} {other : String}
    (h : (stem.zip other.toList).any fun pair => pair.1 != pair.2) :
  numberAt? other (stem ++ text) = none
  := by
  rw [numberAt?, dropPrefix?_append_eq_none h]
  rfl

/-- No label stands where a text differs from all their stems. -/
theorem relocatedLabel?_eq_none {front : List Char}
    (h : ∀ stem ∈ numberedStems.map Prod.fst,
      (front.zip stem.toList).any fun pair => pair.1 != pair.2) :
  relocatedLabel? offset (front ++ text) = none
  := by
  rw [relocatedLabel?, List.findSome?_eq_none_iff]
  rintro ⟨stem, part⟩ hstem
  exact congrArg (Option.map _) (numberAt?_append_eq_none (h stem (List.mem_map_of_mem hstem)))

/-- The label of a branch or a loop is replaced. -/
theorem relocatedLabel?_append {stem : String} {part : Numbering → Nat}
    (hstem : (stem, part) ∈ numberedStems) (number : Nat)
    (htext : ∀ c ∈ text.head?, ¬ c.isDigit) :
  relocatedLabel? offset ((stem ++ toString number).toList ++ text)
    = some (stem ++ toString (number + part offset), (stem ++ toString number).toList.length)
  := by
  have hown := numberAt?_append stem number htext
  have hother : ∀ other : String,
      (stem.toList.zip other.toList).any (fun pair => pair.1 != pair.2) →
      numberAt? other ((stem ++ toString number).toList ++ text) = none := by
    intro other hdiffers
    rw [String.toList_append, List.append_assoc, numberAt?_append_eq_none hdiffers]
  generalize (stem ++ toString number).toList ++ text = whole at hown hother ⊢
  simp only [numberedStems, List.mem_cons, Prod.mk.injEq, List.not_mem_nil, or_false] at hstem
  rcases hstem with ⟨rfl, rfl⟩ | ⟨rfl, rfl⟩ | ⟨rfl, rfl⟩ | ⟨rfl, rfl⟩
  · simp only [relocatedLabel?, numberedStems, List.findSome?_cons, hown, Option.map_some]
  · have hfirst := hother ":if_false_label" (by decide)
    simp only [relocatedLabel?, numberedStems, List.findSome?_cons, hown, hfirst, Option.map_some,
      Option.map_none]
  · have hfirst := hother ":if_false_label" (by decide)
    have hsecond := hother ":if_true_label" (by decide)
    simp only [relocatedLabel?, numberedStems, List.findSome?_cons, hown, hfirst, hsecond,
      Option.map_some, Option.map_none]
  · have hfirst := hother ":if_false_label" (by decide)
    have hsecond := hother ":if_true_label" (by decide)
    have hthird := hother ":while_true_label" (by decide)
    simp only [relocatedLabel?, numberedStems, List.findSome?_cons, hown, hfirst, hsecond, hthird,
      Option.map_some, Option.map_none]

/-- No digit is a colon. -/
theorem colon_not_mem_toDigits (n : Nat) :
  ':' ∉ Nat.toDigits 10 n
  := by
  intro hmem
  cases Nat.isDigit_of_mem_toDigits (by decide) (by decide) hmem

/-- A text without colons has nothing to relocate in it. -/
theorem relocateChars_append {word : List Char} (h : ':' ∉ word) :
  relocateChars offset (word ++ text) = word ++ relocateChars offset text
  := by
  induction word with
  | nil => rfl
  | cons c word ih =>
    obtain ⟨hc, hword⟩ := not_or.mp (mt List.mem_cons.mpr h)
    have hnone : relocatedLabel? offset ([c] ++ (word ++ text)) = none := by
      apply relocatedLabel?_eq_none
      simp [numberedStems, Ne.symm hc]
    rw [List.singleton_append] at hnone
    rw [List.cons_append, relocateChars, hnone]
    dsimp only
    rw [ih hword, List.cons_append]

/-- A label at the front of a text is replaced as a whole, and the rest after it. -/
theorem relocateChars_of_relocatedLabel? {front : List Char} {label : String} (hfront : front ≠ [])
    (h : relocatedLabel? offset (front ++ text) = some (label, front.length)) :
  relocateChars offset (front ++ text) = label.toList ++ relocateChars offset text
  := by
  cases front with
  | nil => exact absurd rfl hfront
  | cons c front =>
    rw [List.cons_append] at h ⊢
    rw [relocateChars, h]
    dsimp only
    rw [List.length_cons, Nat.add_sub_cancel, List.drop_left]

end Text

namespace Label

variable {offset : Numbering} {rest : List Char}

/-- A label whose stem differs from those of branches and loops stays as it is. -/
theorem relocate_unnumbered {stem word : List Char}
    (hstem : ∀ other ∈ Text.numberedStems.map Prod.fst,
      ((':' :: stem).zip other.toList).any fun pair => pair.1 != pair.2)
    (hword : ':' ∉ stem ++ word) :
  Text.relocateChars offset (':' :: (stem ++ word) ++ rest)
    = ':' :: (stem ++ word) ++ Text.relocateChars offset rest
  := by
  have hnone : Text.relocatedLabel? offset (':' :: stem ++ (word ++ rest)) = none :=
    Text.relocatedLabel?_eq_none hstem
  rw [List.cons_append, ← List.append_assoc] at hnone
  rw [List.cons_append, Text.relocateChars, hnone]
  dsimp only
  rw [Text.relocateChars_append hword, List.cons_append]

/-- The text of a label is relocated like the label. -/
theorem relocate_text (label : Label) (hrest : ∀ c ∈ rest.head?, ¬ c.isDigit) :
  Text.relocateChars offset (label.text.toList ++ rest)
    = (label.relocate offset).text.toList ++ Text.relocateChars offset rest
  := by
  have hnumbered : ∀ {stem : String} {part : Numbering → Nat} (number : Nat),
      (stem, part) ∈ Text.numberedStems →
      Text.relocateChars offset ((stem ++ toString number).toList ++ rest)
        = (stem ++ toString (part offset + number)).toList ++ Text.relocateChars offset rest := by
    intro stem part number hstem
    rw [Nat.add_comm]
    apply Text.relocateChars_of_relocatedLabel? _ (Text.relocatedLabel?_append hstem number hrest)
    simp [Nat.toDigits_ne_nil]
  cases label with
  | main =>
    have hmain : Label.main.text.toList = ':' :: ("main".toList ++ []) := by decide
    have hsame : Label.main.relocate offset = .main := rfl
    rw [hsame, hmain]
    exact relocate_unnumbered (by decide) (by decide)
  | function index =>
    have hfunction : (Label.function index).text.toList
        = ':' :: ("func".toList ++ Nat.toDigits 10 index) := Text.toList_append_toString _ _
    have hsame : (Label.function index).relocate offset = .function index := rfl
    rw [hsame, hfunction]
    exact relocate_unnumbered (by decide) (by simp [Text.colon_not_mem_toDigits])
  | branchFalse number => exact hnumbered number (by simp [Text.numberedStems])
  | branchTrue number => exact hnumbered number (by simp [Text.numberedStems])
  | loopTrue number => exact hnumbered number (by simp [Text.numberedStems])
  | loopFalse number => exact hnumbered number (by simp [Text.numberedStems])

end Label

/-- The text of an instruction is relocated like the instruction. -/
theorem Instruction.relocate_text (i : Instruction) {offset : Numbering} {rest : List Char}
    (hrest : ∀ c ∈ rest.head?, ¬ c.isDigit) :
  Text.relocateChars offset (i.text.toList ++ rest)
    = (i.relocate offset).text.toList ++ Text.relocateChars offset rest
  := by
  have htarget : ∀ (op : String) (target : Label), ':' ∉ op.toList →
      Text.relocateChars offset ((op ++ target.text).toList ++ rest)
        = (op ++ (target.relocate offset).text).toList ++ Text.relocateChars offset rest := by
    intro op target hop
    rw [String.toList_append, List.append_assoc, Text.relocateChars_append hop,
      target.relocate_text hrest, String.toList_append, List.append_assoc]
  cases i with
  | jump target => exact htarget _ target (by decide)
  | jumpIfEqual target => exact htarget _ target (by decide)
  | call target => exact htarget _ target (by decide)
  | push value =>
    have hvalue : ':' ∉ value.text.toList := value.not_mem_text rfl (by decide)
    apply Text.relocateChars_append
    simp [text, hvalue]
  | load slot =>
    apply Text.relocateChars_append
    simp [text, Text.colon_not_mem_toDigits]
  | store slot =>
    apply Text.relocateChars_append
    simp [text, Text.colon_not_mem_toDigits]
  | math op =>
    apply Text.relocateChars_append
    cases op <;> decide
  | arithmetic op =>
    apply Text.relocateChars_append
    cases op <;> decide
  | comparison op =>
    apply Text.relocateChars_append
    cases op <;> decide
  | output op =>
    apply Text.relocateChars_append
    cases op <;> decide
  | _ =>
    apply Text.relocateChars_append
    decide

/-- The text of a line is relocated like the line. -/
theorem Line.relocate_text (line : Line) {offset : Numbering} {rest : List Char}
    (hrest : ∀ c ∈ rest.head?, ¬ c.isDigit) :
  Text.relocateChars offset (line.text.toList ++ rest)
    = (line.relocate offset).text.toList ++ Text.relocateChars offset rest
  := by
  cases line with
  | instruction i =>
    rw [text, indented, String.toList_append, List.append_assoc,
      Text.relocateChars_append (by decide), i.relocate_text hrest, relocate, text, indented,
      String.toList_append, List.append_assoc]
  | label l => exact l.relocate_text hrest

/-- The text of code is relocated like the code. -/
theorem Text.relocate_join (offset : Numbering) (code : List Line) :
  relocate offset (String.join (code.map (·.text ++ "\n")))
    = String.join ((code.map (Line.relocate offset)).map (·.text ++ "\n"))
  := by
  have hbreak : "\n".toList = ['\n'] := rfl
  have hchars : relocateChars offset (String.join (code.map (·.text ++ "\n"))).toList
      = (String.join ((code.map (Line.relocate offset)).map (·.text ++ "\n"))).toList := by
    induction code with
    | nil => simp [relocateChars]
    | cons line code ih =>
      simp only [List.map_cons, String.join_cons, String.toList_append, List.append_assoc, hbreak]
      rw [line.relocate_text (by simp), relocateChars_append (by decide), ih]
  rw [relocate, hchars, String.ofList_toList]

/-! ### Generated code -/

/-- Added code is text after the text that was there. -/
theorem Listing.text_addCode (listing : Listing) (code : List Line) (numbering : Numbering) :
  (listing.addCode code numbering).text
    = listing.text ++ String.join (code.map (·.text ++ "\n"))
  := by
  rw [text, addCode, List.map_append, String.join_append, List.map_map, text]
  rfl

/-- A listing in use gets the code that a fresh one gets, with all numbers of branches and loops
moved up by those that were taken, after the text that was there; or both get none because of the
same error.  This holds for every tree, also for one with links that lead in a circle.  The bound on
the nodes that are passed takes nothing away: with any greater bound there is the same code or the
same error. -/
theorem generate_text_relocated (t : Tree) (listing : Listing) :
  (generate t listing).result.map Listing.text
      = (generate t {}).result.map (fun fresh =>
          listing.text ++ Text.relocate listing.numbering fresh.text)
    ∧ ∀ more, (generateWithin (t.size + 1 + more) t listing).result = (generate t listing).result
  := by
  refine ⟨?_, fun more => result_generateWithin_eq (by omega) listing⟩
  unfold generate
  cases hroot : t.root with
  | none =>
    unfold generateWithin
    rw [hroot]
    rfl
  | some root =>
    have hmoved := t.emit_compatible (Emit.moves_compatible listing.numbering) root (t.size + 1)
      {} listing rfl
    rw [result_generateWithin hroot, result_generateWithin hroot]
    generalize (t.emit root (t.size + 1)).outcome {} = outcome,
      (t.emit root (t.size + 1)).outcome listing = outcome' at hmoved
    cases hmoved with
    | error error => rfl
    | ok a code numbering =>
      apply congrArg Except.ok
      have hfresh : (Listing.addCode {} code numbering).text
          = String.join (code.map (·.text ++ "\n")) := by
        rw [Listing.text_addCode]
        exact String.empty_append
      dsimp only
      rw [Listing.text_addCode, hfresh, Text.relocate_join]

/-- The sine links back to the output that it stands in, but no code comes of its left link. -/
example :
  (generate
      { root := some 0
        nodes := #[
          { kind := .function 0, left := some 1 },
          { kind := .separator, left := some 2 },
          { kind := .separator, left := some 3 },
          { kind := .unary (.output .out), right := some 4 },
          { kind := .unary (.math .sin), left := some 3, right := some 5 },
          { kind := .number (.ofNat 1) }] }
      {}).result.toOption.map Listing.text
    = some "    jmp :main\n:main\n    PUSH 1\n    SIN\n    OUT\n    hlt\n"
  := by
  decide +kernel

/-- Numbers of branches and loops are moved, those of functions and slots are not. -/
example : Text.relocate { branches := 2, loops := 7 }
    "    je :if_false_label9\n    CALL :func3\n    POP [4]\n:while_true_label13\n"
      = "    je :if_false_label11\n    CALL :func3\n    POP [4]\n:while_true_label20\n"
  := by
  decide +kernel

end StackCompiler
