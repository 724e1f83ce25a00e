import StackCompiler.Proofs.Assembly.Heights

/-!
# Branches and loops in code

Four lines steer a branch or a loop: its two labels and the two jumps to them.  They always stand in
the same order.  The numbers of the branches increase along the code, and so do those of the loops.
Of two branches or loops, the lines of one stand after those of the other, or all of them between
two lines of the other.
-/

namespace StackCompiler

/-- A branch or a loop, with its number. -/
@[ext]
structure Construct where
  op : ControlOp
  number : Nat
deriving DecidableEq

/-- The number that the next branch or the next loop gets. -/
def Numbering.next (numbering : Numbering) : ControlOp → Nat
  | .branch => numbering.branches
  | .loop => numbering.loops

/-- The numbering after the next branch or the next loop. -/
def Numbering.advance (numbering : Numbering) : ControlOp → Numbering
  | .branch => { numbering with branches := numbering.branches + 1 }
  | .loop => { numbering with loops := numbering.loops + 1 }

/-- A branch or a loop takes the next number of its own kind only. -/
theorem Numbering.next_advance (numbering : Numbering) (op op' : ControlOp) :
  (numbering.advance op).next op' = numbering.next op' + if op = op' then 1 else 0
  := by
  cases op <;> cases op' <;> rfl

/-- The branch or loop to which a label belongs. -/
def Label.construct? : Label → Option Construct
  | .branchFalse number | .branchTrue number => some ⟨.branch, number⟩
  | .loopTrue number | .loopFalse number => some ⟨.loop, number⟩
  | .main | .function _ => none

/-- The branch or loop that a line steers: the line is one of its labels or a jump to one. -/
def Line.construct? : Line → Option Construct
  | .label l => l.construct?
  | .instruction i => i.jumpTarget?.bind Label.construct?

/-- The number of the branch or loop that begins with a line. -/
def Line.opens? : ControlOp → Line → Option Nat
  | .branch, .instruction (.jumpIfEqual (.branchFalse number)) => some number
  | .loop, .label (.loopTrue number) => some number
  | _, _ => none

/-- The numbers of the branches or loops in the order in which they begin. -/
def openings (op : ControlOp) (code : List Line) : List Nat :=
  code.filterMap (Line.opens? op)

/-- The line that opens a branch or a loop belongs to it. -/
theorem Line.construct?_of_opens? {op : ControlOp} {line : Line} {number : Nat}
    (h : line.opens? op = some number) :
  line.construct? = some ⟨op, number⟩
  := by
  unfold opens? at h
  split at h <;> cases h <;> rfl

/-- Numbers up to the middle and from there on. -/
theorem range'_append_of_le {low middle high : Nat} (h : low ≤ middle) (h' : middle ≤ high) :
  List.range' low (middle - low) ++ List.range' middle (high - middle)
    = List.range' low (high - low)
  := by
  obtain ⟨count, rfl⟩ := Nat.exists_eq_add_of_le h
  obtain ⟨count', rfl⟩ := Nat.exists_eq_add_of_le h'
  rw [Nat.add_sub_cancel_left, Nat.add_sub_cancel_left, List.range'_append_1, Nat.add_assoc,
    Nat.add_sub_cancel_left]

/-- The branches and loops of one piece of code are opened before those of the next one. -/
theorem openings_append (op : ControlOp) (code code' : List Line) :
  openings op (code ++ code') = openings op code ++ openings op code'
  := List.filterMap_append

namespace Construct

/-- The first line that steers a branch or a loop. -/
def opening : Construct → Line
  | ⟨.branch, number⟩ => .instruction (.jumpIfEqual (.branchFalse number))
  | ⟨.loop, number⟩ => .label (.loopTrue number)

/-- The last line that steers a branch or a loop. -/
def closing : Construct → Line
  | ⟨.branch, number⟩ => .label (.branchTrue number)
  | ⟨.loop, number⟩ => .label (.loopFalse number)

/-- The lines that steer a branch or a loop, in order. -/
def steering : Construct → List Line
  | ⟨.branch, number⟩ =>
    [.instruction (.jumpIfEqual (.branchFalse number)), .instruction (.jump (.branchTrue number)),
      .label (.branchFalse number), .label (.branchTrue number)]
  | ⟨.loop, number⟩ =>
    [.label (.loopTrue number), .instruction (.jumpIfEqual (.loopFalse number)),
      .instruction (.jump (.loopTrue number)), .label (.loopFalse number)]

/-- Whether a line steers the branch or loop. -/
def steers (x : Construct) (line : Line) : Bool :=
  line.construct? == some x

/-- The number is one that is taken between two numberings. -/
def IsBetween (start stop : Numbering) (x : Construct) : Prop :=
  start.next x.op ≤ x.number ∧ x.number < stop.next x.op

instance (start stop : Numbering) (x : Construct) : Decidable (x.IsBetween start stop) :=
  inferInstanceAs (Decidable (_ ∧ _))

variable {x y : Construct} {line : Line}

/-- A line steers exactly the branch or loop that it belongs to. -/
theorem steers_iff :
  x.steers line ↔ line.construct? = some x
  := beq_iff_eq

/-- The lines of a branch or a loop steer it. -/
theorem steers_of_mem_steering (h : line ∈ x.steering) :
  x.steers line
  := by
  obtain ⟨op, number⟩ := x
  rw [steers_iff]
  cases op <;> simp only [steering, List.mem_cons, List.not_mem_nil, or_false] at h <;>
    rcases h with rfl | rfl | rfl | rfl <;> rfl

/-- The lines of a branch or a loop steer no other one. -/
theorem not_steers_of_mem_steering (hne : x ≠ y) (h : line ∈ y.steering) :
  ¬x.steers line
  := by
  intro hx
  have hy := steers_of_mem_steering h
  rw [steers_iff] at hx hy
  rw [hx] at hy
  exact hne (Option.some.inj hy)

/-- Two branches or loops have no line in common. -/
theorem not_mem_steering (hne : x ≠ y) (h : line ∈ y.steering) :
  line ∉ x.steering
  := fun hx => not_steers_of_mem_steering hne h (steers_of_mem_steering hx)

/-- All lines of a branch or a loop are found. -/
theorem filter_steers_self {part : List Line} (h : part ⊆ x.steering) :
  part.filter x.steers = part
  := List.filter_eq_self.mpr fun _ hline => steers_of_mem_steering (h hline)

/-- No line of another branch or loop is found. -/
theorem filter_steers_other {part : List Line} (hne : x ≠ y) (h : part ⊆ y.steering) :
  part.filter x.steers = []
  := List.filter_eq_nil_iff.mpr fun _ hline => not_steers_of_mem_steering hne (h hline)

/-- The line that opens a branch or a loop is its first one. -/
theorem steering_eq (x : Construct) :
  x.steering = x.opening :: x.steering.tail
  := by
  obtain ⟨op, number⟩ := x
  cases op <;> rfl

/-- The line that opens a branch or a loop opens nothing else. -/
theorem openings_opening (x : Construct) (op : ControlOp) :
  openings op [x.opening] = if x.op = op then [x.number] else []
  := by
  obtain ⟨op', number⟩ := x
  cases op' <;> cases op <;> rfl

/-- A branch or a loop begins only once. -/
theorem openings_tail (x : Construct) (op : ControlOp) :
  openings op x.steering.tail = []
  := by
  obtain ⟨op', number⟩ := x
  cases op' <;> cases op <;> rfl

/-- The lines of a branch or a loop are different. -/
theorem nodup_steering (x : Construct) :
  x.steering.Nodup
  := by
  obtain ⟨op, number⟩ := x
  cases op <;> simp [steering]

/-- A number that is taken is taken either before or after a point in between. -/
theorem IsBetween.split {start stop : Numbering} (h : x.IsBetween start stop)
    (middle : Numbering) :
  x.IsBetween start middle ∧ ¬x.IsBetween middle stop
    ∨ ¬x.IsBetween start middle ∧ x.IsBetween middle stop
  := by
  unfold IsBetween at *
  omega

/-- Whether a number is taken between two numberings does not depend on a number that is taken by
another branch or loop. -/
theorem isBetween_advance {start stop : Numbering} (hne : x ≠ y)
    (hnumber : y.number = start.next y.op) :
  x.IsBetween (start.advance y.op) stop ↔ x.IsBetween start stop
  := by
  rw [IsBetween, IsBetween, Numbering.next_advance]
  split
  · rename_i heq
    have hdiffer : x.number ≠ y.number := fun h => hne (Construct.ext heq.symm h)
    rw [heq] at hnumber
    omega
  · rfl

end Construct

/-! ### The lines of two branches or loops -/

/-- How the lines that steer two branches or loops stand to each other: those of one come first, or
those of one stand between two lines of the other. -/
inductive Arranged (x y : Construct) : List Line → Prop where
  | before : Arranged x y (x.steering ++ y.steering)
  | after : Arranged x y (y.steering ++ x.steering)
  | around {front back : List Line} (h : front ++ back = x.steering) (hfront : front ≠ [])
      (hback : back ≠ []) : Arranged x y (front ++ y.steering ++ back)
  | within {front back : List Line} (h : front ++ back = y.steering) (hfront : front ≠ [])
      (hback : back ≠ []) : Arranged x y (front ++ x.steering ++ back)

/-- It does not matter which of two branches or loops is named first. -/
theorem Arranged.symm {x y : Construct} {lines : List Line} (h : Arranged x y lines) :
  Arranged y x lines
  := by
  cases h with
  | before => apply Arranged.after
  | after => apply Arranged.before
  | around h hfront hback => apply Arranged.within h hfront hback
  | within h hfront hback => apply Arranged.around h hfront hback

/-- The lines that steer one of two branches or loops. -/
def steeringEither (x y : Construct) (code : List Line) : List Line :=
  code.filter fun line => x.steers line || y.steers line

section Either

variable {x y : Construct} {code : List Line}

/-- The lines of two branches or loops in one piece of code come before those in the next one. -/
theorem steeringEither_append (x y : Construct) (code code' : List Line) :
  steeringEither x y (code ++ code') = steeringEither x y code ++ steeringEither x y code'
  := List.filter_append _ _

/-- It does not matter which of two branches or loops is named first. -/
theorem steeringEither_comm (x y : Construct) (code : List Line) :
  steeringEither x y code = steeringEither y x code
  := by
  apply List.filter_congr
  intro line _
  apply Bool.or_comm

/-- If code has no line of the second one, then only those of the first one are found. -/
theorem steeringEither_left (h : code.filter y.steers = []) :
  steeringEither x y code = code.filter x.steers
  := by
  apply List.filter_congr
  intro line hline
  rw [Bool.eq_false_iff.mpr (List.filter_eq_nil_iff.mp h line hline), Bool.or_false]

/-- If code has no line of the first one, then only those of the second one are found. -/
theorem steeringEither_right (h : code.filter x.steers = []) :
  steeringEither x y code = code.filter y.steers
  := by
  rw [steeringEither_comm, steeringEither_left h]

end Either

/-! ### Lines around code -/

/-- The lines that steer a branch or a loop in three parts, between which other code may stand. -/
structure Construct.Parts (x : Construct) (front between back : List Line) : Prop where
  steering : x.steering = front ++ between ++ back
  front_ne : front ≠ []
  back_ne : back ≠ []

namespace Construct.Parts

variable {x y z : Construct} {front between back code code' : List Line}

/-- The parts are lines of the branch or loop. -/
theorem subset (h : x.Parts front between back) :
  (front ⊆ x.steering ∧ between ⊆ x.steering) ∧ back ⊆ x.steering
  := by
  rw [← List.append_subset, ← List.append_subset, ← h.steering]
  apply List.Subset.refl

/-- Around code that does not steer it, a branch or a loop has all its lines once. -/
theorem filter_self (h : x.Parts front between back) (hcode : code.filter x.steers = [])
    (hcode' : code'.filter x.steers = []) :
  (front ++ code ++ between ++ code' ++ back).filter x.steers = x.steering
  := by
  obtain ⟨⟨hfront, hbetween⟩, hback⟩ := h.subset
  simp only [List.filter_append, filter_steers_self hfront, filter_steers_self hbetween,
    filter_steers_self hback, hcode, hcode', List.append_nil, h.steering]

/-- The lines around code steer no other branch or loop. -/
theorem filter_other (h : x.Parts front between back) (hne : y ≠ x) (code code' : List Line) :
  (front ++ code ++ between ++ code' ++ back).filter y.steers = (code ++ code').filter y.steers
  := by
  obtain ⟨⟨hfront, hbetween⟩, hback⟩ := h.subset
  simp only [List.filter_append, filter_steers_other hne hfront, filter_steers_other hne hbetween,
    filter_steers_other hne hback, List.append_nil, List.nil_append]

/-- A branch or a loop is opened before those in it. -/
theorem openings_eq (h : x.Parts front between back) (op : ControlOp) (code code' : List Line) :
  openings op (front ++ code ++ between ++ code' ++ back)
    = (if x.op = op then [x.number] else []) ++ openings op (code ++ code')
  := by
  obtain ⟨line, front, rfl⟩ := List.exists_cons_of_ne_nil h.front_ne
  have hsteering := h.steering
  have htail := x.openings_tail op
  rw [steering_eq] at hsteering
  obtain ⟨rfl, hrest⟩ := List.cons.inj hsteering
  rw [hrest] at htail
  simp only [List.append_eq, openings_append, List.append_eq_nil_iff] at htail
  obtain ⟨⟨hfront, hbetween⟩, hback⟩ := htail
  rw [← List.singleton_append]
  simp only [openings_append, openings_opening, hfront, hbetween, hback, List.append_nil,
    List.nil_append, List.append_assoc]

/-- The lines of a branch or a loop stand around those of another one in it. -/
theorem steeringEither_self (h : x.Parts front between back) (hne : y ≠ x)
    (hcode : code.filter x.steers = []) (hcode' : code'.filter x.steers = []) :
  steeringEither x y (front ++ code ++ between ++ code' ++ back)
    = front ++ code.filter y.steers ++ between ++ code'.filter y.steers ++ back
  := by
  obtain ⟨⟨hfront, hbetween⟩, hback⟩ := h.subset
  simp only [steeringEither_append, steeringEither_left (filter_steers_other hne hfront),
    steeringEither_left (filter_steers_other hne hbetween),
    steeringEither_left (filter_steers_other hne hback), steeringEither_right hcode,
    steeringEither_right hcode', filter_steers_self hfront, filter_steers_self hbetween,
    filter_steers_self hback]

/-- The lines around code are not among those of two other branches or loops. -/
theorem steeringEither_other (h : x.Parts front between back) (hy : y ≠ x) (hz : z ≠ x)
    (code code' : List Line) :
  steeringEither y z (front ++ code ++ between ++ code' ++ back)
    = steeringEither y z (code ++ code')
  := by
  obtain ⟨⟨hfront, hbetween⟩, hback⟩ := h.subset
  simp only [steeringEither_append, steeringEither_left (filter_steers_other hz hfront),
    steeringEither_left (filter_steers_other hz hbetween),
    steeringEither_left (filter_steers_other hz hback), filter_steers_other hy hfront,
    filter_steers_other hy hbetween, filter_steers_other hy hback, List.append_nil,
    List.nil_append]

end Construct.Parts

/-! ### Code that is steered -/

/-- The branches and loops that are numbered between two numberings are those that the code steers,
each by its four lines.  They begin in the order of their numbers, and their lines do not cross. -/
structure Steered (start stop : Numbering) (code : List Line) : Prop where
  next_le : ∀ op, start.next op ≤ stop.next op
  steering : ∀ x : Construct,
    code.filter x.steers = if x.IsBetween start stop then x.steering else []
  opened : ∀ op, openings op code = List.range' (start.next op) (stop.next op - start.next op)
  arranged : ∀ x y : Construct, x ≠ y → x.IsBetween start stop → y.IsBetween start stop →
    Arranged x y (steeringEither x y code)

namespace Steered

variable {start middle stop : Numbering} {code code' : List Line}

/-- A branch or a loop whose number was taken has all its lines once. -/
theorem steering_of_isBetween (h : Steered start stop code) {x : Construct}
    (hx : x.IsBetween start stop) :
  code.filter x.steers = x.steering
  := by
  rw [h.steering, if_pos hx]

/-- A branch or a loop whose number was not taken has no line. -/
theorem steering_of_not_isBetween (h : Steered start stop code) {x : Construct}
    (hx : ¬x.IsBetween start stop) :
  code.filter x.steers = []
  := by
  rw [h.steering, if_neg hx]

/-- Code without the lines of branches and loops takes no numbers. -/
theorem plain (start : Numbering) (h : ∀ line ∈ code, line.construct? = none) :
  Steered start start code
  := by
  have hnot (x : Construct) : ¬x.IsBetween start start :=
    fun hx => Nat.not_lt_of_le hx.1 hx.2
  constructor
  · exact fun op => Nat.le_refl _
  · intro x
    rw [if_neg (hnot x), List.filter_eq_nil_iff]
    intro line hline
    rw [Construct.steers_iff, h line hline]
    exact nofun
  · intro op
    rw [Nat.sub_self, List.range'_zero, openings, List.filterMap_eq_nil_iff]
    intro line hline
    apply Option.eq_none_iff_forall_ne_some.mpr
    intro number hopens
    cases (h line hline).symm.trans (Line.construct?_of_opens? hopens)
  · intro x y _ hx
    cases hnot x hx

/-- One piece of code that is steered after the other. -/
theorem append (h : Steered start middle code) (h' : Steered middle stop code') :
  Steered start stop (code ++ code')
  := by
  constructor
  · exact fun op => Nat.le_trans (h.next_le op) (h'.next_le op)
  · intro x
    rw [List.filter_append]
    split
    · rename_i hx
      rcases hx.split middle with ⟨hearly, hlate⟩ | ⟨hearly, hlate⟩
      · rw [h.steering_of_isBetween hearly, h'.steering_of_not_isBetween hlate, List.append_nil]
      · rw [h.steering_of_not_isBetween hearly, h'.steering_of_isBetween hlate, List.nil_append]
    · rename_i hx
      have hearly : ¬x.IsBetween start middle :=
        fun hx' => hx ⟨hx'.1, Nat.lt_of_lt_of_le hx'.2 (h'.next_le x.op)⟩
      have hlate : ¬x.IsBetween middle stop :=
        fun hx' => hx ⟨Nat.le_trans (h.next_le x.op) hx'.1, hx'.2⟩
      rw [h.steering_of_not_isBetween hearly, h'.steering_of_not_isBetween hlate, List.append_nil]
  · intro op
    rw [openings_append, h.opened, h'.opened]
    apply range'_append_of_le (h.next_le op) (h'.next_le op)
  · intro x y hne hx hy
    rw [steeringEither_append]
    rcases hx.split middle with ⟨hearly, hlate⟩ | ⟨hearly, hlate⟩ <;>
      rcases hy.split middle with ⟨hearly', hlate'⟩ | ⟨hearly', hlate'⟩
    · rw [steeringEither_left (h'.steering_of_not_isBetween hlate'),
        h'.steering_of_not_isBetween hlate, List.append_nil]
      apply h.arranged x y hne hearly hearly'
    · rw [steeringEither_left (h.steering_of_not_isBetween hearly'),
        steeringEither_right (h'.steering_of_not_isBetween hlate),
        h.steering_of_isBetween hearly, h'.steering_of_isBetween hlate']
      apply Arranged.before
    · rw [steeringEither_right (h.steering_of_not_isBetween hearly),
        steeringEither_left (h'.steering_of_not_isBetween hlate'),
        h.steering_of_isBetween hearly', h'.steering_of_isBetween hlate]
      apply Arranged.after
    · rw [steeringEither_left (h.steering_of_not_isBetween hearly'),
        h.steering_of_not_isBetween hearly, List.nil_append]
      apply h'.arranged x y hne hlate hlate'

/-- The lines of a branch or a loop are laid around code whose numbers are taken later. -/
theorem enclose {x : Construct} {front between back : List Line}
    (hparts : x.Parts front between back) (hnumber : x.number = start.next x.op)
    (h : Steered (start.advance x.op) middle code) (h' : Steered middle stop code') :
  Steered start stop (front ++ code ++ between ++ code' ++ back)
  := by
  have hinner := h.append h'
  have hadvance := start.next_advance x.op x.op
  rw [if_pos rfl] at hadvance
  have hle := hinner.next_le x.op
  -- The number is taken already when the code inside begins.
  have hnone : (code ++ code').filter x.steers = [] := by
    apply hinner.steering_of_not_isBetween
    intro hbetween
    have hlow := hbetween.1
    omega
  rw [List.filter_append, List.append_eq_nil_iff] at hnone
  obtain ⟨hcode, hcode'⟩ := hnone
  have hself {y : Construct} (hne : y ≠ x) (hy : y.IsBetween start stop) :
      Arranged x y (steeringEither x y (front ++ code ++ between ++ code' ++ back)) := by
    rw [hparts.steeringEither_self hne hcode hcode']
    have hy' := (Construct.isBetween_advance hne hnumber).mpr hy
    rcases hy'.split middle with ⟨hearly, hlate⟩ | ⟨hearly, hlate⟩
    · rw [h.steering_of_isBetween hearly, h'.steering_of_not_isBetween hlate, List.append_nil,
        List.append_assoc]
      apply Arranged.around _ hparts.front_ne (List.append_ne_nil_of_right_ne_nil _ hparts.back_ne)
      rw [hparts.steering, List.append_assoc]
    · rw [h.steering_of_not_isBetween hearly, h'.steering_of_isBetween hlate, List.append_nil]
      apply Arranged.around hparts.steering.symm
        (List.append_ne_nil_of_left_ne_nil hparts.front_ne _) hparts.back_ne
  constructor
  · intro op
    apply Nat.le_trans _ (hinner.next_le op)
    rw [Numbering.next_advance]
    apply Nat.le_add_right
  · intro y
    by_cases heq : y = x
    · subst heq
      rw [hparts.filter_self hcode hcode', if_pos ⟨by omega, by omega⟩]
    · rw [hparts.filter_other heq, hinner.steering y]
      simp only [Construct.isBetween_advance heq hnumber]
  · intro op
    rw [hparts.openings_eq, hinner.opened]
    by_cases heq : x.op = op
    · subst heq
      have hrange := range'_append_of_le (Nat.le_succ (start.next x.op)) (hadvance ▸ hle)
      rw [Nat.succ_sub (Nat.le_refl _), Nat.sub_self] at hrange
      rw [if_pos rfl, hadvance, hnumber, ← hrange]
      rfl
    · rw [if_neg heq, Numbering.next_advance, if_neg heq, Nat.add_zero, List.nil_append]
  · intro y z hne hy hz
    by_cases hyx : y = x
    · subst hyx
      apply hself hne.symm hz
    · by_cases hzx : z = x
      · subst hzx
        rw [steeringEither_comm]
        apply (hself hne hy).symm
      · rw [hparts.steeringEither_other hyx hzx]
        apply hinner.arranged y z hne
        · apply (Construct.isBetween_advance hyx hnumber).mpr hy
        · apply (Construct.isBetween_advance hzx hnumber).mpr hz

end Steered

/-! ### The code of a program -/

/-- Code without labels and jumps belongs to no branch or loop. -/
theorem construct?_eq_none_of_labels {code : List Line} (hlabels : labels code = [])
    (hjumps : jumpTargets code = []) :
  ∀ line ∈ code, line.construct? = none
  := by
  intro line hline
  cases line with
  | label label => cases List.filterMap_eq_nil_iff.mp hlabels _ hline
  | instruction i =>
    have htarget : i.jumpTarget? = none := List.filterMap_eq_nil_iff.mp hjumps _ hline
    rw [Line.construct?, htarget, Option.bind_none]

/-- The label of a function belongs to no branch or loop. -/
theorem Lower.construct?_target (entry index : Nat) :
  (target entry index).construct? = none
  := by
  unfold target
  split <;> rfl

/-- The code of a branch is steered if its arms are. -/
theorem steered_branch {start middle stop : Numbering} {test consequence alternative : List Line}
    (htest : Steered start start test)
    (hconsequence : Steered (start.advance .branch) middle consequence)
    (halternative : Steered middle stop alternative) :
  Steered start stop (Lower.branch start.branches test consequence alternative)
  := by
  have hparts : (Construct.mk .branch start.branches).Parts
      [.instruction (.jumpIfEqual (.branchFalse start.branches))]
      [.instruction (.jump (.branchTrue start.branches)), .label (.branchFalse start.branches)]
      [.label (.branchTrue start.branches)] :=
    ⟨rfl, List.cons_ne_nil _ _, List.cons_ne_nil _ _⟩
  have hpush : Steered start start [.instruction (.push (.ofNat 0))] := by
    apply Steered.plain start
    simp [Line.construct?, Instruction.jumpTarget?]
  have hcode := (htest.append hpush).append (.enclose hparts rfl hconsequence halternative)
  simpa [Lower.branch] using hcode

/-- The code of a loop is steered if its body is. -/
theorem steered_loop {start stop : Numbering} {test body : List Line}
    (htest : Steered (start.advance .loop) (start.advance .loop) test)
    (hbody : Steered (start.advance .loop) stop body) :
  Steered start stop (Lower.loop start.loops test body)
  := by
  have hparts : (Construct.mk .loop start.loops).Parts [.label (.loopTrue start.loops)]
      [.instruction (.jumpIfEqual (.loopFalse start.loops))]
      [.instruction (.jump (.loopTrue start.loops)), .label (.loopFalse start.loops)] :=
    ⟨rfl, List.cons_ne_nil _ _, List.cons_ne_nil _ _⟩
  have hpush : Steered (start.advance .loop) (start.advance .loop)
      [.instruction (.push (.ofNat 0))] := by
    apply Steered.plain
    simp [Line.construct?, Instruction.jumpTarget?]
  have hcode := Steered.enclose hparts rfl (htest.append hpush) hbody
  simpa [Lower.loop] using hcode

section Forms

variable {entry : Nat} {functions : List (Nat × Nat)} {start stop : Numbering}
  {calls : List CallCode} {code : List Line}

/-- The code of a value takes no number. -/
theorem ValueCode.steered (h : ValueCode entry calls code) (start : Numbering) :
  Steered start start code
  := .plain start (construct?_eq_none_of_labels h.labels_eq h.jumpTargets_eq)

/-- The lines after a value are no lines of a branch or a loop. -/
theorem ValueCode.steered_append (h : ValueCode entry calls code) (start : Numbering)
    {rest : List Line} (hrest : ∀ line ∈ rest, line.construct? = none) :
  Steered start start (code ++ rest)
  := (h.steered start).append (.plain start hrest)

/-- The code of a body is steered by the branches and loops in it. -/
theorem BodyCode.steered (h : BodyCode entry start calls code stop) :
  Steered start stop code
  := by
  induction h with
  | nil start => apply Steered.plain start (List.forall_mem_nil _)
  | append h h' ih ih' => apply ih.append ih'
  | assign start slot hvalue =>
    apply hvalue.steered_append
    simp [Line.construct?, Instruction.jumpTarget?]
  | call start index saved harguments =>
    apply Steered.plain
    apply construct?_eq_none_of_labels
    · apply labels_call (labels_arguments fun argument h => (harguments argument h).labels_eq)
    · apply jumpTargets_call
        (jumpTargets_arguments fun argument h => (harguments argument h).jumpTargets_eq)
  | ret start hvalue =>
    apply hvalue.steered_append
    simp [Line.construct?, Instruction.jumpTarget?]
  | input start slot =>
    apply Steered.plain
    simp [Line.construct?, Instruction.jumpTarget?]
  | output start op hvalue =>
    apply hvalue.steered_append
    simp [Line.construct?, Instruction.jumpTarget?]
  | branch htest hconsequence halternative ih ih' =>
    apply steered_branch (htest.steered _) ih ih'
  | loop htest hbody ih => apply steered_loop (htest.steered _) ih

/-- The code of functions is steered by the branches and loops in them. -/
theorem FunctionsCode.steered (h : FunctionsCode entry functions start calls code stop) :
  Steered start stop code
  := by
  induction h with
  | nil start => apply Steered.plain start (List.forall_mem_nil _)
  | @cons functions start middle stop index slots calls calls' body ending code hbody hending hlast
      hcode ih =>
    have hhead : Steered start start (.label (Lower.target entry index)
        :: slots.reverse.map (fun slot => .instruction (.store slot))) := by
      apply Steered.plain
      rw [List.forall_mem_cons, List.forall_mem_map]
      exact ⟨Lower.construct?_target entry index, fun slot _ => rfl⟩
    have hending : Steered middle middle ending := by
      apply Steered.plain
      rcases hending with rfl | rfl <;> simp [Line.construct?, Instruction.jumpTarget?]
    apply (hhead.append (hbody.steered.append hending)).append ih

/-- The code of a program is steered by the branches and loops in it. -/
theorem ProgramCode.steered (h : ProgramCode entry functions start calls code stop) :
  Steered start stop code
  := by
  cases h with
  | @mk middle _ calls calls' code main hcode hmain =>
    have hplain (numbering : Numbering) (line : Line) (hline : line.construct? = none) :
        Steered numbering numbering [line] :=
      .plain numbering (List.forall_mem_singleton.mpr hline)
    have hfunctions := (hplain start (.instruction (.jump .main)) rfl).append hcode.steered
    have hbody := hmain.steered.append (hplain stop (.instruction .halt) rfl)
    simpa using hfunctions.append ((hplain middle (.label .main) rfl).append hbody)

end Forms

end StackCompiler
