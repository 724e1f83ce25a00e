import StackCompiler.Exchange.Read
import StackCompiler.Proofs.Assembly.CallNodes
import StackCompiler.Proofs.Compile.Outcomes
import StackCompiler.Proofs.Execution.Machine

/-!
# A call protects what its arguments mention

All variables share one space of slots, so a function may overwrite those of its caller.  A call
therefore pushes every variable that its arguments mention and takes them back afterwards.  This
works for whatever the functions do to the slots, as long as each one takes exactly its arguments
off the stack and leaves what is below them.

The machine is followed through the lines of a call.  The functions that are called on the way are
run by the machine as well, and only what they leave behind matters.
-/

namespace StackCompiler

namespace Machine

variable {V : Type}

section Passing

variable (A : Arithmetic V) (code : List Line)

/-- The machine runs inside of a call until it is back at the given depth of calls. -/
inductive Returns (depth : Nat) : Machine V → Machine V → Prop where
  | back {inside back : Machine V} (hinside : depth < inside.callers.length)
      (hstep : inside.step A code = .next back) (hback : back.callers.length = depth) :
      Returns depth inside back
  | step {inside next back : Machine V} (hinside : depth < inside.callers.length)
      (hstep : inside.step A code = .next next) (h : Returns depth next back) :
      Returns depth inside back

/-- The machine runs through some lines, with the given lines after them, from one stack and store
to another.  The calls on the way are of functions that return, each of which takes as many values
off the stack as the list says and leaves what is below these. -/
inductive Passes (rest : List Line) (callers : List (List Line)) :
    List Line → (counts : List Nat) → (before after : List V × Store V) → Prop where
  | nil (before : List V × Store V) : Passes rest callers [] [] before before
  | line {line : Line} {lines : List Line} {counts : List Nat} {before after : List V × Store V}
      {stack : List V} {store : Store V} (hline : callTargets [line] = [])
      (hstep : step A code ⟨line :: (lines ++ rest), before.1, callers, before.2⟩
        = .next ⟨lines ++ rest, stack, callers, store⟩)
      (h : Passes rest callers lines counts (stack, store) after) :
      Passes rest callers (line :: lines) counts before after
  | call {label : Label} {lines : List Line} {counts : List Nat} {before after : List V × Store V}
      {given below : List V} {called : Machine V} {store : Store V}
      (hstack : before.1 = given ++ below)
      (hstep : step A code
        ⟨.instruction (.call label) :: (lines ++ rest), before.1, callers, before.2⟩ = .next called)
      (hreturns : Returns A code callers.length called ⟨lines ++ rest, below, callers, store⟩)
      (h : Passes rest callers lines counts (below, store) after) :
      Passes rest callers (.instruction (.call label) :: lines) (given.length :: counts) before
        after

end Passing

variable {A : Arithmetic V} {code rest : List Line} {callers : List (List Line)}
  {before after : List V × Store V}

theorem Returns.halts {depth : Nat} {inside back : Machine V} {final : List V × Store V}
    (h : Returns A code depth inside back) (hback : Halts A code back final) :
  Halts A code inside final
  := by
  induction h with
  | back hinside hstep hdepth => apply hback.of_step hstep
  | step hinside hstep h ih => apply (ih hback).of_step hstep

namespace Passes

/-- What passes is part of a run of the machine. -/
theorem halts {lines : List Line} {counts : List Nat} {final : List V × Store V}
    (h : Passes A code rest callers lines counts before after)
    (hafter : Halts A code ⟨rest, after.1, callers, after.2⟩ final) :
  Halts A code ⟨lines ++ rest, before.1, callers, before.2⟩ final
  := by
  induction h with
  | nil before => exact hafter
  | line hline hstep h ih => apply (ih hafter).of_step hstep
  | call hstack hstep hreturns h ih => apply (hreturns.halts (ih hafter)).of_step hstep

/-- Lines that pass can be cut in two. -/
theorem split {lines lines' : List Line} {counts counts' : List Nat}
    (h : Passes A code rest callers (lines ++ lines') (counts ++ counts') before after)
    (hcounts : counts.length = (callTargets lines).length) :
  ∃ middle, Passes A code (lines' ++ rest) callers lines counts before middle
    ∧ Passes A code rest callers lines' counts' middle after
  := by
  generalize hall : lines ++ lines' = all at h
  generalize htotal : counts ++ counts' = total at h
  induction h generalizing lines counts with
  | nil before =>
    obtain ⟨rfl, rfl⟩ := List.append_eq_nil_iff.mp hall
    obtain ⟨rfl, rfl⟩ := List.append_eq_nil_iff.mp htotal
    exact ⟨before, .nil before, .nil before⟩
  | @line line others total before after stack store hline hstep h ih =>
    cases lines with
    | nil =>
      obtain rfl := List.eq_nil_of_length_eq_zero hcounts
      obtain rfl : lines' = _ := hall
      obtain rfl : counts' = _ := htotal
      exact ⟨before, .nil before, .line hline hstep h⟩
    | cons first lines =>
      rw [List.cons_append] at hall
      obtain ⟨rfl, rfl⟩ := List.cons.inj hall
      rw [← List.singleton_append, callTargets_append, hline, List.nil_append] at hcounts
      obtain ⟨middle', hfirst, hsecond⟩ := ih hcounts rfl htotal
      rw [List.append_assoc] at hstep
      exact ⟨middle', .line hline hstep hfirst, hsecond⟩
  | @call label others total before after given below called store hstack hstep hreturns h ih =>
    cases lines with
    | nil =>
      obtain rfl := List.eq_nil_of_length_eq_zero hcounts
      obtain rfl : lines' = _ := hall
      obtain rfl : counts' = _ := htotal
      exact ⟨before, .nil before, .call hstack hstep hreturns h⟩
    | cons first lines =>
      rw [List.cons_append] at hall
      obtain ⟨rfl, rfl⟩ := List.cons.inj hall
      cases counts with
      | nil => cases hcounts
      | cons count counts =>
        rw [List.cons_append] at htotal
        obtain ⟨rfl, rfl⟩ := List.cons.inj htotal
        obtain ⟨middle', hfirst, hsecond⟩ := ih (Nat.succ.inj hcounts) rfl rfl
        rw [List.append_assoc] at hstep hreturns
        exact ⟨middle', .call hstack hstep hreturns hfirst, hsecond⟩

theorem eq_of_nil {counts : List Nat} (h : Passes A code rest callers [] counts before after) :
  after = before
  := by
  cases h
  rfl

/-- An instruction that calls nothing is performed. -/
theorem of_instruction {i : Instruction} {lines : List Line} {counts : List Nat}
    (h : Passes A code rest callers (.instruction i :: lines) counts before after)
    (hi : callTargets [.instruction i] = []) :
  ∃ stack store,
    perform A code i ⟨lines ++ rest, before.1, callers, before.2⟩
      = .next ⟨lines ++ rest, stack, callers, store⟩
    ∧ Passes A code rest callers lines counts (stack, store) after
  := by
  cases h with
  | line hline hstep h => exact ⟨_, _, hstep, h⟩
  | call hstack hstep hreturns h => cases hi

/-- A last instruction that calls nothing. -/
theorem perform_eq {i : Instruction}
    (h : Passes A code rest callers [.instruction i] [] before after)
    (hi : callTargets [.instruction i] = []) :
  perform A code i ⟨rest, before.1, callers, before.2⟩ = .next ⟨rest, after.1, callers, after.2⟩
  := by
  obtain ⟨stack, store, hperform, h⟩ := h.of_instruction hi
  rw [h.eq_of_nil]
  exact hperform

/-- Lines that end with an instruction that calls nothing. -/
theorem split_last {i : Instruction} {lines : List Line} {counts : List Nat}
    (h : Passes A code rest callers (lines ++ [.instruction i]) counts before after)
    (hi : callTargets [.instruction i] = [])
    (hcounts : counts.length = (callTargets (lines ++ [.instruction i])).length) :
  ∃ middle, Passes A code (.instruction i :: rest) callers lines counts before middle
    ∧ perform A code i ⟨rest, middle.1, callers, middle.2⟩ = .next ⟨rest, after.1, callers, after.2⟩
  := by
  rw [callTargets_append, hi, List.append_nil] at hcounts
  rw [← List.append_nil counts] at h
  obtain ⟨middle, hlines, hlast⟩ := h.split hcounts
  exact ⟨middle, hlines, hlast.perform_eq hi⟩

/-- Slots are pushed one after the other. -/
theorem eq_of_loads {saved : List Nat}
    (h : Passes A code rest callers (saved.map fun slot => .instruction (.load slot)) [] before
      after) :
  after = ((saved.map before.2.slots).reverse ++ before.1, before.2)
  := by
  induction saved generalizing before with
  | nil => apply h.eq_of_nil
  | cons slot saved ih =>
    obtain ⟨stack, store, hperform, h⟩ := h.of_instruction rfl
    cases hperform
    rw [ih h, List.map_cons, List.reverse_cons, List.append_assoc]
    rfl

/-- Slots are taken off the stack again. -/
theorem eq_of_stores {saved : List Nat} {values : Nat → V} {below : List V}
    (h : Passes A code rest callers (saved.map fun slot => .instruction (.store slot)) [] before
      after)
    (hbefore : before.1 = saved.map values ++ below) :
  after = (below, before.2.restore saved values)
  := by
  induction saved generalizing before with
  | nil =>
    rw [h.eq_of_nil, Store.restore_nil, ← show before.1 = below from hbefore]
  | cons slot saved ih =>
    obtain ⟨stack, store, hperform, h⟩ := h.of_instruction rfl
    rw [hbefore] at hperform
    cases hperform
    rw [ih h rfl, Store.restore_cons]

/-- A call leaves the stack and the slots that it saves as they were, if the code of its arguments
leaves one value for each argument. -/
theorem call_frame {entry index : Nat} {saved : List Nat} {arguments : List Line}
    {counts : List Nat} {count : Nat}
    (hcounts : counts.length = (callTargets arguments).length)
    (harguments : ∀ {rest : List Line} {before after : List V × Store V},
      Passes A code rest callers arguments counts before after →
        ∃ values, values.length = count ∧ after.1 = values ++ before.1)
    (h : Passes A code rest callers (Lower.call entry index saved arguments) (counts ++ [count])
      before after) :
  after.1 = before.1 ∧ ∀ slot ∈ saved, after.2.slots slot = before.2.slots slot
  := by
  have hloads := callTargets_map_load saved
  obtain ⟨ready, hready, h⟩ := h.split (by rw [callTargets_append, hloads, hcounts]; rfl)
  rw [← List.nil_append counts] at hready
  obtain ⟨pushed, hpushed, hready⟩ := hready.split (by rw [hloads]; rfl)
  obtain rfl := hpushed.eq_of_loads
  obtain ⟨values, hlength, hvalues⟩ := harguments hready
  cases h with
  | line hline hstep h => cases hline
  | @call _ _ _ _ _ given below called store hstack hstep hreturns h =>
    -- What was given is what the arguments left, so the saved values are on top again.
    obtain ⟨-, rfl⟩ := List.append_inj (hstack.symm.trans hvalues) hlength.symm
    rw [h.eq_of_stores (by rw [List.map_reverse])]
    refine ⟨rfl, ?_⟩
    intro slot hslot
    exact if_pos (List.mem_reverse.mpr hslot)

end Passes

/-- Code that leaves one value on the stack, whatever it does to the store. -/
def LeavesValue (A : Arithmetic V) (code : List Line) (callers : List (List Line))
    (lines : List Line) (counts : List Nat) : Prop :=
  ∀ {rest : List Line} {before after : List V × Store V},
    Passes A code rest callers lines counts before after → ∃ value, after.1 = value :: before.1

end Machine

/-! ### Values -/

/-- The number of values that each call gives to its function. -/
def CallCode.counts (calls : List CallCode) : List Nat :=
  calls.map fun call => call.values.length

section Values

open Machine

variable {V : Type} {A : Arithmetic V} {code : List Line} {callers : List (List Line)} {entry : Nat}

theorem ValueCode.length_counts {calls : List CallCode} {lines : List Line}
    (h : ValueCode entry calls lines) :
  (CallCode.counts calls).length = (callTargets lines).length
  := by
  rw [h.callSites.targets, CallCode.counts, List.length_map, List.length_map]

theorem length_counts_arguments {arguments : List (List CallCode × List Line)}
    (h : ∀ argument ∈ arguments, ValueCode entry argument.1 argument.2) :
  (CallCode.counts (arguments.map (·.1)).flatten).length
    = (callTargets (arguments.map (·.2)).flatten).length
  := by
  rw [(CallSites.arguments fun argument hargument => (h argument hargument).callSites).targets,
    CallCode.counts, List.length_map, List.length_map]

/-- The code of arguments leaves one value for each of them. -/
theorem exists_values_of_passes {arguments : List (List CallCode × List Line)}
    (hforms : ∀ argument ∈ arguments, ValueCode entry argument.1 argument.2)
    (hleaves : ∀ argument ∈ arguments,
      LeavesValue A code callers argument.2 (CallCode.counts argument.1))
    {rest : List Line} {before after : List V × Store V}
    (h : Passes A code rest callers (arguments.map (·.2)).flatten
      (CallCode.counts (arguments.map (·.1)).flatten) before after) :
  ∃ values, values.length = arguments.length ∧ after.1 = values ++ before.1
  := by
  induction arguments generalizing before with
  | nil =>
    rw [h.eq_of_nil]
    exact ⟨[], rfl, rfl⟩
  | cons argument arguments ih =>
    obtain ⟨hform, hforms⟩ := List.forall_mem_cons.mp hforms
    obtain ⟨hleave, hleaves⟩ := List.forall_mem_cons.mp hleaves
    simp only [List.map_cons, List.flatten_cons, CallCode.counts, List.map_append] at h
    obtain ⟨middle, hfirst, hothers⟩ := h.split hform.length_counts
    obtain ⟨value, hvalue⟩ := hleave hfirst
    obtain ⟨values, hlength, hvalues⟩ := ih hforms hleaves hothers
    use values ++ [value]
    rw [hvalues, hvalue, List.length_append, hlength, List.append_assoc]
    exact ⟨rfl, rfl⟩

/-- A call whose arguments leave their values protects what it saves. -/
theorem call_frame_of_passes {arguments : List (List CallCode × List Line)} {index : Nat}
    {saved : List Nat} {asValue : Bool}
    (hforms : ∀ argument ∈ arguments, ValueCode entry argument.1 argument.2)
    (hleaves : ∀ argument ∈ arguments,
      LeavesValue A code callers argument.2 (CallCode.counts argument.1))
    {rest : List Line} {before after : List V × Store V}
    (h : Passes A code rest callers
      (Lower.call entry index saved (arguments.map (·.2)).flatten)
      (CallCode.counts
        ((arguments.map (·.1)).flatten ++ [⟨index, saved, arguments.map (·.2), asValue⟩]))
      before after) :
  after.1 = before.1 ∧ ∀ slot ∈ saved, after.2.slots slot = before.2.slots slot
  := by
  rw [CallCode.counts, List.map_append, List.map_singleton, List.length_map] at h
  apply Passes.call_frame (length_counts_arguments hforms) _ h
  intro rest before after hpasses
  apply exists_values_of_passes hforms hleaves hpasses

/-- The code of two operands leaves their values on the stack. -/
theorem exists_operands_of_passes {calls calls' : List CallCode} {left right : List Line}
    (hleft : ValueCode entry calls left)
    (hl : LeavesValue A code callers left (CallCode.counts calls))
    (hr : LeavesValue A code callers right (CallCode.counts calls'))
    {rest : List Line} {before after : List V × Store V}
    (h : Passes A code rest callers (left ++ right) (CallCode.counts (calls ++ calls')) before
      after) :
  ∃ first second, after.1 = second :: first :: before.1
  := by
  rw [CallCode.counts, List.map_append] at h
  obtain ⟨middle, hfirst, hsecond⟩ := h.split hleft.length_counts
  obtain ⟨first, hfirst⟩ := hl hfirst
  obtain ⟨second, hsecond⟩ := hr hsecond
  rw [hfirst] at hsecond
  exact ⟨first, second, hsecond⟩

/-- Code that computes a value leaves it on the stack. -/
theorem ValueCode.leavesValue {calls : List CallCode} {lines : List Line}
    (h : ValueCode entry calls lines) :
  LeavesValue A code callers lines (CallCode.counts calls)
  := by
  induction h with
  | push value =>
    rintro rest before ⟨stack, store⟩ hpasses
    cases hpasses.perform_eq rfl
    exact ⟨_, rfl⟩
  | load slot =>
    rintro rest before ⟨stack, store⟩ hpasses
    cases hpasses.perform_eq rfl
    exact ⟨_, rfl⟩
  | input slot =>
    rintro rest before ⟨stack, store⟩ hpasses
    obtain ⟨stack', store', hperform, hpasses⟩ := hpasses.of_instruction rfl
    simp only [perform] at hperform
    split at hperform
    · cases hperform
      obtain ⟨stack', store', hperform, hpasses⟩ := hpasses.of_instruction rfl
      cases hperform
      cases hpasses.perform_eq rfl
      exact ⟨_, rfl⟩
    · cases hperform
  | math op h ih =>
    rintro rest before ⟨stack, store⟩ hpasses
    obtain ⟨middle, hoperand, hperform⟩ := hpasses.split_last rfl (h.math op).length_counts
    obtain ⟨value, hvalue⟩ := ih hoperand
    rw [hvalue] at hperform
    cases hperform
    exact ⟨_, rfl⟩
  | arithmetic op hleft hright ihl ihr =>
    rintro rest before ⟨stack, store⟩ hpasses
    obtain ⟨middle, hoperands, hperform⟩ :=
      hpasses.split_last rfl (hleft.arithmetic op hright).length_counts
    obtain ⟨first, second, hvalues⟩ := exists_operands_of_passes hleft ihl ihr hoperands
    rw [hvalues] at hperform
    cases hperform
    exact ⟨_, rfl⟩
  | comparison op hleft hright ihl ihr =>
    rintro rest before ⟨stack, store⟩ hpasses
    obtain ⟨middle, hoperands, hperform⟩ :=
      hpasses.split_last rfl (hleft.comparison op hright).length_counts
    obtain ⟨first, second, hvalues⟩ := exists_operands_of_passes hleft ihl ihr hoperands
    rw [hvalues] at hperform
    cases hperform
    exact ⟨_, rfl⟩
  | @call index saved arguments harguments ih =>
    rintro rest before ⟨stack, store⟩ hpasses
    obtain ⟨middle, hcall, hperform⟩ :=
      hpasses.split_last rfl (ValueCode.call index saved harguments).length_counts
    have hframe := call_frame_of_passes harguments ih hcall
    cases hperform
    rw [hframe.1]
    exact ⟨_, rfl⟩

end Values

/-! ### Call nodes -/

theorem Lower.length_of_argumentValues {entry : Nat} {arguments : Unfolding}
    {values : List (List Line)} (h : ArgumentValues entry arguments values) :
  values.length = arguments.filledItems.length
  := (List.Forall₂.length_eq h).symm

/-- The code of the items that are not empty is the code of the arguments. -/
theorem Lower.arguments_eq_ok {entry : Nat} {u : Unfolding} {values : List (List Line)}
    (h : ArgumentValues entry u values) :
  arguments entry u = .ok values.flatten
  := by
  induction u generalizing values with
  | absent | dangling id | cut id =>
    cases h
    rfl
  | node id kind item next ihl ihr =>
    cases item with
    | absent =>
      have hnext : ArgumentValues entry next values := h
      simp only [arguments, ihr hnext, bind, Except.bind]
      rfl
    | dangling other | cut other =>
      cases h with
      | cons hvalue hnext =>
        obtain ⟨parent, hvalue⟩ := hvalue
        cases hvalue
    | node other kind' l r =>
      cases h with
      | @cons _ value _ values hvalue hnext =>
        obtain ⟨parent, hvalue⟩ := hvalue
        have hitem : expression entry id (.node other kind' l r) = .ok value := hvalue
        simp only [arguments, hitem, ihr hnext, bind, Except.bind]
        rfl

/-- The call nodes in the code of a call node, which comes last. -/
def CallNode.within (node : CallNode) : List CallNode :=
  node.arguments.itemCallNodes true ++ [node]

/-- The calls in the code of call nodes give the values of the arguments that are not empty. -/
theorem CallNode.map_arity {entry : Nat} {nodes : List CallNode} {calls : List CallCode}
    (h : List.Forall₂ (Lower.IsCallOf entry) nodes calls) :
  nodes.map CallNode.arity = CallCode.counts calls
  := by
  induction h with
  | nil => rfl
  | cons hcall h ih =>
    rw [List.map_cons, ih, CallNode.arity, ← Lower.length_of_argumentValues hcall.isCall.values]
    rfl

/-- A call node leaves the stack as it was, with the result on top if a value is wanted, and the
variables that its arguments mention as they were. -/
theorem CallNode.protects {V : Type} {A : Arithmetic V} {code rest : List Line}
    {callers : List (List Line)} {before after : List V × Store V} {entry : Nat} {node : CallNode}
    {values : List (List Line)} (hvalues : Lower.ArgumentValues entry node.arguments values)
    (h : Machine.Passes A code rest callers (node.code entry values)
      (node.within.map CallNode.arity) before after) :
  after.1 = (if node.asValue then after.2.result :: before.1 else before.1)
    ∧ ∀ slot ∈ node.saved, after.2.slots slot = before.2.slots slot
  := by
  obtain ⟨list, hflatten, hforms, hlist, hcalls⟩ :=
    Lower.arguments_form node.arguments (Lower.arguments_eq_ok hvalues)
  let call : CallCode := ⟨node.index, node.saved, list.map (·.2), true⟩
  have hcounts : node.within.map CallNode.arity
      = CallCode.counts ((list.map (·.1)).flatten ++ [call]) := by
    rw [CallNode.within, List.map_append, CallNode.map_arity hcalls, List.map_singleton,
      CallNode.arity, ← Lower.length_of_argumentValues hlist, CallCode.counts, CallCode.counts,
      List.map_append, List.map_singleton]
  have hcode : node.code entry values = Lower.call entry node.index node.saved
      (list.map (·.2)).flatten ++ if node.asValue then [.instruction .pushResult] else [] := by
    rw [← hflatten]
    rfl
  have hleaves : ∀ argument ∈ list,
      Machine.LeavesValue A code callers argument.2 (CallCode.counts argument.1) :=
    fun argument hargument => (hforms argument hargument).leavesValue
  rw [hcode, hcounts] at h
  cases hasValue : node.asValue with
  | false =>
    rw [hasValue, if_neg Bool.false_ne_true, List.append_nil] at h
    exact call_frame_of_passes hforms hleaves h
  | true =>
    rw [hasValue, if_pos rfl] at h
    obtain ⟨middle, hcall, hperform⟩ :=
      h.split_last rfl (ValueCode.call node.index node.saved hforms).length_counts
    obtain ⟨stack, store⟩ := after
    cases hperform
    obtain ⟨hstack, hslots⟩ := call_frame_of_passes hforms hleaves hcall
    exact ⟨congrArg (_ :: ·) hstack, hslots⟩

/-- Every call node of a verified tree that is emitted protects what its arguments mention: its code
stands in one piece, and running it leaves the stack and the mentioned slots as they were, whatever
the functions write to the slots. -/
theorem generate_protects_mentioned {t : Tree} {listing out : Listing} (hverify : t.verify = ∅)
    (hgenerate : (generate t listing).result = .ok out) :
  ∃ entry code numbering, t.unfolding.functions.head?.map (·.1) = some entry
    ∧ Lower.program t.unfolding listing.numbering = .ok (code, numbering)
    ∧ out = listing.addCode code numbering
    ∧ callTargets code
      = t.unfolding.programCallNodes.map (fun node => Lower.target entry node.index)
    ∧ ∀ place node, t.unfolding.programCallNodes[place]? = some node →
        t.HasCallNode node
        ∧ (∃ before values after, code = before ++ node.code entry values ++ after
            ∧ Lower.ArgumentValues entry node.arguments values
            ∧ (callTargets (before ++ values.flatten)).length = place
            ∧ beginsWithResult after = false)
        ∧ ∀ values, Lower.ArgumentValues entry node.arguments values →
            ∀ (V : Type) (A : Arithmetic V) (rest : List Line) (callers : List (List Line))
              (before after : List V × Store V),
              Machine.Passes A code rest callers (node.code entry values)
                (node.within.map CallNode.arity) before after →
              after.1 = (if node.asValue then after.2.result :: before.1 else before.1)
                ∧ ∀ slot ∈ node.saved, after.2.slots slot = before.2.slots slot
  := by
  obtain ⟨u, hu⟩ := Tree.verify_eq_empty_iff.mp hverify
  rw [hu.unfolds.result_generate] at hgenerate
  obtain ⟨⟨code, numbering⟩, hprogram, hout⟩ := Parse.bind_eq_ok.mp (mapError_eq_ok hgenerate)
  cases hout
  rw [hu.unfolding_eq]
  obtain ⟨entry, hentry, htargets, hpieces⟩ := Lower.program_pieces hprogram
  refine ⟨entry, code, numbering, hentry, hprogram, rfl, htargets, ?_⟩
  intro place node hnode
  refine ⟨?_, hpieces place node hnode, ?_⟩
  · apply Tree.hasCallNode_of_mem_programCallNodes hu.unfolds (List.mem_of_getElem? hnode)
  · intro values hvalues V A rest callers before after hpasses
    apply CallNode.protects hvalues hpasses

/-- A function that overwrites the variable of its caller, and a program that calls it with what a
call of it with that variable gives. -/
def overwriting : String :=
  "( 6 0 ( 0 23 ( 0 23 ( 2 5 _ ( 6 1 _ ( 0 23 ( 6 1 _ ( 0 23 ( 5 0 _ _ ) _ ) ) _ ) ) ) _ ) _ ) "
    ++ "( 6 1 ( 0 23 ( 0 23 ( 1 20 ( 5 0 _ _ ) ( 4 7 _ _ ) ) ( 0 23 ( 2 8 _ ( 5 1 _ _ ) ) _ ) ) "
    ++ "( 0 23 ( 5 1 _ _ ) _ ) ) _ ) )"

namespace Overwriting

/-- The outer one of the two calls. -/
def outerCall : CallNode where
  id := 4
  index := 1
  arguments :=
    .node 3 .separator
      (.node 2 (.function 1) .absent
        (.node 1 .separator (.node 0 (.variable 0) .absent .absent) .absent))
      .absent
  asValue := true

/-- What the tree unfolds to. -/
def unfolding : Unfolding :=
  let leaf (id : NodeId) (kind : NodeKind) : Unfolding := .node id kind .absent .absent
  let body : Unfolding :=
    .node 14 .separator
      (.node 10 (.binary .assign) (leaf 8 (.variable 0)) (leaf 9 (.number (.ofNat 7))))
      (.node 13 .separator (.node 12 (.unary .ret) .absent (leaf 11 (.variable 1))) .absent)
  let function : Unfolding :=
    .node 18 (.function 1)
      (.node 17 .separator body (.node 16 .separator (leaf 15 (.variable 1)) .absent)) .absent
  let output : Unfolding :=
    .node 5 (.unary (.output .out)) .absent
      (.node outerCall.id (.function outerCall.index) .absent outerCall.arguments)
  .node 19 (.function 0) (.node 7 .separator (.node 6 .separator output .absent) .absent) function

/-- The lines of the inner call. -/
def innerLines : List Line :=
  [.instruction (.load 0), .instruction (.load 0), .instruction (.call (.function 1)),
    .instruction (.store 0), .instruction .pushResult]

/-- The lines after both calls. -/
def lastLines : List Line :=
  [.instruction (.output .out), .instruction .halt]

/-- The lines of the function. -/
def functionLines : List Line :=
  [.instruction (.store 1), .instruction (.push (.ofNat 7)), .instruction (.store 0),
    .instruction (.load 1), .instruction .popResult, .instruction .ret]

def code : List Line :=
  .instruction (.jump .main) :: .label (.function 1) :: functionLines
    ++ .label .main :: outerCall.code 0 [innerLines]
    ++ lastLines

theorem argumentValues :
  Lower.ArgumentValues 0 outerCall.arguments [innerLines]
  := .cons ⟨0, rfl⟩ .nil

variable {V : Type} (A : Arithmetic V)

/-- The function returns without its argument and with another value in the slot of its caller. -/
theorem returns (lines : List Line) (value : V) (stack : List V) (store : Store V) :
  ∃ store', store'.slots 0 = A.number (.ofNat 7)
    ∧ Machine.Returns A code 0
        ⟨functionLines ++ .label .main :: outerCall.code 0 [innerLines] ++ lastLines,
          value :: stack, [lines], store⟩
        ⟨lines, stack, [], store'⟩
  := by
  have hinside : 0 < [lines].length := Nat.one_pos
  refine ⟨_, ?_, .step hinside rfl (.step hinside rfl (.step hinside rfl (.step hinside rfl
    (.step hinside rfl (.back hinside rfl rfl)))))⟩
  rfl

/-- The machine runs through both calls. -/
theorem passes (before : List V × Store V) :
  ∃ after, Machine.Passes A code lastLines [] (outerCall.code 0 [innerLines])
    (outerCall.within.map CallNode.arity) before after
  := by
  let saved := before.2.slots 0
  obtain ⟨first, -, hfirst⟩ :=
    returns A (innerLines.drop 3 ++ (outerCall.code 0 [innerLines]).drop 6 ++ lastLines) saved
      (saved :: saved :: before.1) before.2
  obtain ⟨second, -, hsecond⟩ :=
    returns A ((outerCall.code 0 [innerLines]).drop 7 ++ lastLines) first.result
      (saved :: before.1) (first.set 0 saved)
  have hlines : outerCall.code 0 [innerLines]
      = .instruction (.load 0) :: innerLines
        ++ [.instruction (.call (.function 1)), .instruction (.store 0),
          .instruction .pushResult] := rfl
  have hcounts : outerCall.within.map CallNode.arity
      = [[saved].length, [first.result].length] := rfl
  rw [hlines, hcounts]
  use (second.result :: before.1, second.set 0 saved)
  apply Machine.Passes.line rfl rfl
  apply Machine.Passes.line rfl rfl
  apply Machine.Passes.line rfl rfl
  apply Machine.Passes.call rfl rfl hfirst
  apply Machine.Passes.line rfl rfl
  apply Machine.Passes.line rfl rfl
  apply Machine.Passes.call rfl rfl hsecond
  apply Machine.Passes.line rfl rfl
  apply Machine.Passes.line rfl rfl
  apply Machine.Passes.nil

/-- Natural numbers as values. -/
def naturals : Arithmetic Nat where
  number value := value.magnitude
  math _ x := x
  arithmetic _ x y := x + y
  comparison _ x _ := x
  equal x y := x == y

end Overwriting

/-- Both calls overwrite the variable that they mention, and it still holds five after them.  The
machine goes on from there to its end. -/
theorem generate_protects_mentioned_overwriting :
  ∃ t out, Tree.read overwriting = .ok t ∧ t.verify = ∅ ∧ (generate t {}).result = .ok out
    ∧ t.unfolding.programCallNodes[1]? = some Overwriting.outerCall
    ∧ t.HasCallNode Overwriting.outerCall
    ∧ ∃ stack store,
        Machine.Passes Overwriting.naturals Overwriting.code Overwriting.lastLines []
          (Overwriting.outerCall.code 0 [Overwriting.innerLines])
          (Overwriting.outerCall.within.map CallNode.arity) ([1, 2], ⟨fun _ => 5, 0, [], []⟩)
          (stack, store)
        ∧ stack = [store.result, 1, 2] ∧ store.slots 0 = 5
        ∧ Machine.Halts Overwriting.naturals Overwriting.code
            ⟨Overwriting.outerCall.code 0 [Overwriting.innerLines] ++ Overwriting.lastLines, [1, 2],
              [], ⟨fun _ => 5, 0, [], []⟩⟩
            ([1, 2], store.write store.result)
  := by
  have hfacts : (Tree.read overwriting).toOption.map (fun t => (t.verify, t.unfolding))
      = some (∅, Overwriting.unfolding) := by
    decide +kernel
  obtain ⟨t, hread, heq⟩ := Option.map_eq_some_iff.mp hfacts
  obtain ⟨hverify, hunfolding⟩ := Prod.mk.inj heq
  have hnode : t.unfolding.programCallNodes[1]? = some Overwriting.outerCall := by
    rw [hunfolding]
    rfl
  have hprogram : Lower.program t.unfolding {} = .ok (Overwriting.code, {}) := by
    rw [hunfolding]
    rfl
  have hentry : t.unfolding.functions.head?.map (·.1) = some 0 := by
    rw [hunfolding]
    rfl
  have hgenerate : (generate t {}).result = .ok (Listing.addCode {} Overwriting.code {}) := by
    obtain ⟨u, hu⟩ := Tree.verify_eq_empty_iff.mp hverify
    rw [hu.unfolding_eq] at hprogram
    have hnumbering : ({} : Listing).numbering = {} := rfl
    rw [hu.unfolds.result_generate, Unfolding.lower, hnumbering, hprogram]
    rfl
  obtain ⟨entry, code, numbering, hentry', hprogram', -, -, hnodes⟩ :=
    generate_protects_mentioned hverify hgenerate
  cases hentry.symm.trans hentry'
  cases hprogram.symm.trans hprogram'
  obtain ⟨hcall, -, hprotects⟩ := hnodes 1 _ hnode
  obtain ⟨⟨stack, store⟩, hpasses⟩ :=
    Overwriting.passes Overwriting.naturals ([1, 2], ⟨fun _ => 5, 0, [], []⟩)
  obtain ⟨hstack, hslots⟩ := hprotects _ Overwriting.argumentValues _ _ _ _ _ _ hpasses
  have hstack : stack = [store.result, 1, 2] := hstack
  have hhalts : Machine.Halts Overwriting.naturals Overwriting.code
      ⟨Overwriting.lastLines, stack, [], store⟩ ([1, 2], store.write store.result) := by
    rw [hstack]
    apply Machine.Halts.of_step rfl
    apply Machine.Halts.of_halted rfl
  exact ⟨t, _, eq_ok_of_toOption hread, hverify, hgenerate, hnode, hcall, stack, store, hpasses,
    hstack, hslots 0 (by decide), hpasses.halts hhalts⟩

end StackCompiler
