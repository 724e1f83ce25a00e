import StackCompiler.Compile
import StackCompiler.Proofs.Assembly.Reading
import StackCompiler.Proofs.Tree.Flags
import StackCompiler.Tree.Graph

/-!
# Graph descriptions

The description of a tree as a graph is read line by line: a line tells of a node's record, of an
edge, or of nothing.  What is read are the nodes that can be reached, each one once, in depth-first
order and followed by its edges.  The names of a tree may hold anything, also line breaks and texts
that look like entries; none of that is read as an entry, since quotes and arrows are escaped.

The description is written by a loop that keeps the positions still to be drawn on a stack.  It ends
for every tree, after one turn for the root and one for each edge.  As many nodes are drawn as
verification reports.
-/

namespace StackCompiler

/-! ### Reading a description -/

/-- What a line of a description tells of: the record of a node, or an edge to a child. -/
inductive GraphEntry where
  | record (id : NodeId)
  | edge (id child : NodeId)
deriving DecidableEq, Repr

namespace Text

/-- The number that a text begins with, and what follows it. -/
def leadingNumber? (text : List Char) : Option (Nat × List Char) :=
  (natural? (text.takeWhile Char.isDigit)).map (·, text.dropWhile Char.isDigit)

/-- A number is read up to its last digit. -/
theorem leadingNumber?_toDigits (n : Nat) {text : List Char}
    (h : ∀ c ∈ text.head?, c.isDigit = false) :
  leadingNumber? (Nat.toDigits 10 n ++ text) = some (n, text)
  := by
  have hdigits : ∀ d ∈ Nat.toDigits 10 n, d.isDigit :=
    fun d => Nat.isDigit_of_mem_toDigits (by decide) (by decide)
  have htext : text.takeWhile Char.isDigit = [] ∧ text.dropWhile Char.isDigit = text := by
    cases text with
    | nil => exact ⟨rfl, rfl⟩
    | cons c text => simp [h c rfl]
  rw [leadingNumber?, List.takeWhile_append_of_pos hdigits, List.dropWhile_append_of_pos hdigits,
    htext.1, htext.2, List.append_nil, natural?_toDigits, Option.map_some]

/-- No digit is the end of a line. -/
theorem lineBreak_not_mem_toDigits (n : Nat) :
  '\n' ∉ Nat.toDigits 10 n
  := by
  intro hmem
  cases Nat.isDigit_of_mem_toDigits (by decide) (by decide) hmem

/-- What is left behind a number stands at the end of the text. -/
theorem suffix_of_leadingNumber?_eq_some {text rest : List Char} {n : Nat}
    (h : leadingNumber? text = some (n, rest)) :
  rest <:+ text
  := by
  obtain ⟨_, -, heq⟩ := Option.map_eq_some_iff.mp h
  rw [← (Prod.mk.inj heq).2]
  apply List.dropWhile_suffix

/-- What stands before the first line break goes to the first line. -/
theorem splitOn_append_of_not_mem {stem : List Char} {c : Char} (h : c ∉ stem) (text : List Char) :
  (stem ++ text).splitOn c = (text.splitOn c).modifyHead (stem ++ ·)
  := by
  induction stem with
  | nil => exact (congrFun List.modifyHead_id _).symm
  | cons d stem ih =>
    obtain ⟨hne, hstem⟩ := not_or.mp (List.mem_cons.not.mp h)
    rw [List.cons_append, List.splitOn_cons_eq_if_modifyHead, ih hstem,
      if_neg (by simpa using Ne.symm hne), List.modifyHead_modifyHead]
    rfl

/-- The first line is at the start of a text, and all lines are in it. -/
theorem splitOn_eq_cons (c : Char) (text : List Char) :
  ∃ first rest, text.splitOn c = first :: rest ∧ first <+: text ∧ ∀ line ∈ rest, line <:+: text
  := by
  induction text with
  | nil => exact ⟨[], [], List.splitOn_nil c, List.nil_prefix, nofun⟩
  | cons d text ih =>
    obtain ⟨first, rest, hsplit, hfirst, hrest⟩ := ih
    rw [List.splitOn_cons_eq_if_modifyHead, hsplit]
    split
    · use [], first :: rest, rfl, List.nil_prefix
      intro line hline
      apply List.infix_cons
      rcases List.mem_cons.mp hline with rfl | hline
      · exact hfirst.isInfix
      · exact hrest line hline
    · use d :: first, rest, rfl, List.cons_prefix_cons.mpr ⟨rfl, hfirst⟩
      exact fun line hline => List.infix_cons (hrest line hline)

/-- A mark does not turn up in front of a text if the new character is not its first one. -/
theorem not_infix_cons {mark text : List Char} {first c : Char} (hne : c ≠ first)
    (h : ¬ first :: mark <:+: text) :
  ¬ first :: mark <:+: c :: text
  := by
  intro hmark
  rcases List.infix_cons_iff.mp hmark with hmark | hmark
  · exact hne (List.cons_prefix_cons.mp hmark).1.symm
  · exact h hmark

end Text

namespace GraphEntry

/-- The entry that a line tells of. -/
def ofLine? (line : List Char) : Option GraphEntry := do
  let text ← line.dropPrefix? "        ".toList
  let (id, text) ← Text.leadingNumber? text
  if "  [shape = \"Mrecord\"".toList.isPrefixOf text then return .record id
  else
    let text ← text.dropPrefix? " -> ".toList
    let (child, text) ← Text.leadingNumber? text
    if " [".toList.isPrefixOf text then return .edge id child else none

/-- The entries that a text tells of. -/
def ofText (text : String) : List GraphEntry :=
  (text.toList.splitOn '\n').filterMap ofLine?

/-- Whether an entry is a record. -/
def isRecord : GraphEntry → Bool
  | record _ => true
  | edge _ _ => false

/-- The line of a node is read as its record. -/
theorem ofLine?_record (id : NodeId) (text : List Char) :
  ofLine? ("        ".toList ++ (Nat.toDigits 10 id ++ ("  [shape = \"Mrecord\"".toList ++ text)))
    = some (.record id)
  := by
  rw [ofLine?, List.dropPrefix?_append_of_beq _ (beq_self_eq_true _), Option.bind_eq_bind,
    Option.bind_some, Text.leadingNumber?_toDigits id (by simp)]
  rfl

/-- The line of an edge is read as the edge. -/
theorem ofLine?_edge (id child : NodeId) (text : List Char) :
  ofLine? ("        ".toList ++ (Nat.toDigits 10 id ++ (" -> ".toList
      ++ (Nat.toDigits 10 child ++ (" [".toList ++ text)))))
    = some (.edge id child)
  := by
  rw [ofLine?, List.dropPrefix?_append_of_beq _ (beq_self_eq_true _), Option.bind_eq_bind,
    Option.bind_some, Text.leadingNumber?_toDigits id (by simp), Option.bind_eq_bind,
    Option.bind_some]
  dsimp only
  rw [if_neg (by simp), List.dropPrefix?_append_of_beq _ (beq_self_eq_true _), Option.bind_some,
    Text.leadingNumber?_toDigits child (by simp)]
  rfl

/-- Every line that tells of an entry has a mark of it: a blank and a quote before the name of the
shape, or an arrow. -/
theorem infix_of_ofLine?_eq_some {line : List Char} {entry : GraphEntry}
    (h : ofLine? line = some entry) :
  [' ', '"', 'M'] <:+: line ∨ ['-', '>'] <:+: line
  := by
  obtain ⟨text, hblanks, hentry⟩ := Option.bind_eq_some_iff.mp h
  obtain ⟨⟨id, rest⟩, hnumber, hentry⟩ := Option.bind_eq_some_iff.mp hentry
  obtain ⟨blanks, rfl, -⟩ := List.dropPrefix?_eq_some_iff.mp hblanks
  have hrest : rest <:+: blanks ++ text :=
    ((Text.suffix_of_leadingNumber?_eq_some hnumber).trans (List.suffix_append _ _)).isInfix
  dsimp only at hentry
  split at hentry
  · rename_i hshape
    left
    have hmark : [' ', '"', 'M'] <:+: "  [shape = \"Mrecord\"".toList := by decide
    exact hmark.trans ((List.isPrefixOf_iff_prefix.mp hshape).isInfix.trans hrest)
  · right
    obtain ⟨after, harrow, -⟩ := Option.bind_eq_some_iff.mp hentry
    obtain ⟨arrow, rfl, heq⟩ := List.dropPrefix?_eq_some_iff.mp harrow
    obtain rfl := eq_of_beq heq
    have hmark : ['-', '>'] <:+: " -> ".toList := by decide
    exact hmark.trans ((List.prefix_append _ _).isInfix.trans hrest)

/-- A text that has no mark of an entry, and gets none from a blank or a dash in front of it. -/
structure Guarded (text : List Char) : Prop where
  not_quote : ¬ ['"', 'M'] <+: text
  not_arrowhead : ¬ ['>'] <+: text
  not_record : ¬ [' ', '"', 'M'] <:+: text
  not_edge : ¬ ['-', '>'] <:+: text

namespace Guarded

variable {text : List Char} {c : Char}

/-- No part of a guarded text is read as an entry. -/
theorem ofLine?_eq_none {line : List Char} (h : Guarded text) (hline : line <:+: text) :
  ofLine? line = none
  := by
  apply Option.eq_none_iff_forall_ne_some.mpr
  intro entry hentry
  rcases infix_of_ofLine?_eq_some hentry with hmark | hmark
  · exact h.not_record (hmark.trans hline)
  · exact h.not_edge (hmark.trans hline)

/-- A character that can be no part of an entry keeps a text guarded. -/
theorem cons (h : Guarded text) (hquote : c ≠ '"') (hhead : c ≠ '>') :
  Guarded (c :: text)
  := by
  constructor
  · exact fun hmark => hquote (List.cons_prefix_cons.mp hmark).1.symm
  · exact fun hmark => hhead (List.cons_prefix_cons.mp hmark).1.symm
  · intro hmark
    rcases List.infix_cons_iff.mp hmark with hmark | hmark
    · exact h.not_quote (List.cons_prefix_cons.mp hmark).2
    · exact h.not_record hmark
  · intro hmark
    rcases List.infix_cons_iff.mp hmark with hmark | hmark
    · exact h.not_arrowhead (List.cons_prefix_cons.mp hmark).2
    · exact h.not_edge hmark

/-- A character that begins no mark is harmless after a backslash. -/
theorem backslash_cons (h : Guarded text) (hblank : c ≠ ' ') (hdash : c ≠ '-') :
  Guarded ('\\' :: c :: text)
  := by
  constructor
  · simp
  · simp
  · apply Text.not_infix_cons (by decide)
    apply Text.not_infix_cons hblank h.not_record
  · apply Text.not_infix_cons (by decide)
    apply Text.not_infix_cons hdash h.not_edge

/-- No entry begins in a text that is escaped. -/
theorem escaped_append (h : Guarded text) (label : String) :
  Guarded ((Tree.graphEscaped label).toList ++ text)
  := by
  rw [Tree.graphEscaped, String.toList_ofList]
  induction label.toList with
  | nil => exact h
  | cons c label ih =>
    rw [List.flatMap_cons, List.append_assoc]
    split
    · rename_i hspecial
      apply ih.backslash_cons
      · rintro rfl
        revert hspecial
        decide
      · rintro rfl
        revert hspecial
        decide
    · rename_i hplain
      apply ih.cons
      · rintro rfl
        exact hplain (by decide)
      · rintro rfl
        exact hplain (by decide)

end Guarded

/-! ### Descriptions are read back -/

/-- Lines are read one by one. -/
theorem ofText_join (lines : List String) :
  ofText (String.join (lines.map (· ++ "\n"))) = lines.flatMap ofText
  := by
  induction lines with
  | nil => rfl
  | cons line lines ih =>
    have hbreak : "\n".toList = ['\n'] := rfl
    rw [List.map_cons, String.join_cons, List.flatMap_cons, ← ih, ofText, String.toList_append,
      String.toList_append, hbreak, List.append_assoc, List.singleton_append,
      List.splitOn_append_cons_self, List.filterMap_append]
    rfl

/-- If an entry is read from the start of a line and no other one begins after that, it is the only
one that is read. -/
theorem ofText_eq_singleton {text : String} {stem rest : List Char} {entry : GraphEntry}
    (htext : text.toList = stem ++ rest) (hbreak : '\n' ∉ stem)
    (hentry : ∀ more, ofLine? (stem ++ more) = some entry) (hrest : Guarded rest) :
  ofText text = [entry]
  := by
  obtain ⟨first, lines, hsplit, -, hlines⟩ := Text.splitOn_eq_cons '\n' rest
  have hnone : lines.filterMap ofLine? = [] :=
    List.filterMap_eq_nil_iff.mpr fun line hline => hrest.ofLine?_eq_none (hlines line hline)
  rw [ofText, htext, Text.splitOn_append_of_not_mem hbreak, hsplit, List.modifyHead_cons,
    List.filterMap_cons_some (hentry first), hnone]

/-- A record is read as one, whatever its label is. -/
theorem ofText_record (id : NodeId) (label : String) {tail : String} (h : Guarded tail.toList) :
  ofText ("        " ++ toString id
      ++ "  [shape = \"Mrecord\", fillcolor = \"#FFFFFF\", label = \""
      ++ Tree.graphEscaped label ++ tail)
    = [.record id]
  := by
  have hmark : "  [shape = \"Mrecord\", fillcolor = \"#FFFFFF\", label = \""
      = "  [shape = \"Mrecord\"" ++ ", fillcolor = \"#FFFFFF\", label = \"" := by decide
  have htext : ("        " ++ toString id
      ++ "  [shape = \"Mrecord\", fillcolor = \"#FFFFFF\", label = \""
      ++ Tree.graphEscaped label ++ tail).toList
      = "        ".toList ++ (Nat.toDigits 10 id ++ ("  [shape = \"Mrecord\"".toList
          ++ ", fillcolor = \"#FFFFFF\", label = \"".toList))
        ++ ((Tree.graphEscaped label).toList ++ tail.toList) := by
    simp only [hmark, String.toList_append, Nat.toString_eq_ofList_toDigits, String.toList_ofList,
      List.append_assoc]
  apply ofText_eq_singleton htext _ _ (h.escaped_append label)
  · simp [Text.lineBreak_not_mem_toDigits]
  · intro more
    rw [List.append_assoc, List.append_assoc, List.append_assoc]
    apply ofLine?_record

/-- The text of an edge is read as the edge. -/
theorem ofText_edge (id child : NodeId) :
  ofText ("        " ++ toString id ++ " -> " ++ toString child
      ++ " [color = \"#FF0000\", weight = 10];")
    = [.edge id child]
  := by
  have hmark : " [color = \"#FF0000\", weight = 10];"
      = " [" ++ "color = \"#FF0000\", weight = 10];" := by decide
  have htext : ("        " ++ toString id ++ " -> " ++ toString child
      ++ " [color = \"#FF0000\", weight = 10];").toList
      = "        ".toList ++ (Nat.toDigits 10 id ++ (" -> ".toList ++ (Nat.toDigits 10 child
          ++ " [".toList)))
        ++ "color = \"#FF0000\", weight = 10];".toList := by
    simp only [hmark, String.toList_append, Nat.toString_eq_ofList_toDigits, String.toList_ofList,
      List.append_assoc]
  apply ofText_eq_singleton htext _ _ ⟨by decide, by decide, by decide, by decide⟩
  · simp [Text.lineBreak_not_mem_toDigits]
  · intro more
    rw [List.append_assoc, List.append_assoc, List.append_assoc, List.append_assoc]
    apply ofLine?_edge

end GraphEntry

namespace Tree

variable {t : Tree}

/-- The children of the node at a position. -/
def childrenAt (t : Tree) (id : NodeId) : List NodeId :=
  (t.get? id).elim [] Node.children

/-- What a description tells of the node at a position: its record, and an edge to each of its
children. -/
def entriesAt (t : Tree) (id : NodeId) : List GraphEntry :=
  .record id :: (t.childrenAt id).map (.edge id)

/-- The lines of a node are read as its record and the edges to its children. -/
theorem ofText_graphLines (id : NodeId) (n : Node) :
  (t.graphLines id n).flatMap GraphEntry.ofText = .record id :: n.children.map (.edge id)
  := by
  have hguarded : GraphEntry.Guarded ("\", color = \""
      ++ ((if n.kind = .hole then "#FF0000" else "#0000FF") ++ "\"];")).toList := by
    split
    · exact ⟨by decide, by decide, by decide, by decide⟩
    · exact ⟨by decide, by decide, by decide, by decide⟩
  have hrecord := GraphEntry.ofText_record id (t.graphLabel n.kind) hguarded
  rw [graphLines, List.flatMap_cons, String.append_assoc, String.append_assoc, hrecord,
    List.singleton_append, List.flatMap_map]
  simp only [GraphEntry.ofText_edge, List.map_eq_flatMap]

-- a name may look like an edge on a line of its own
example :
  (graphLines { vars := ⟨["x\n        7 -> 8 ["]⟩ } 3
      { kind := .variable 0, left := some 4 }).flatMap GraphEntry.ofText
    = [.record 3, .edge 3 4]
  := by
  decide +kernel

/-- The frame of a description is read as nothing. -/
theorem ofText_graphText (lines : List String) :
  GraphEntry.ofText (graphText lines) = lines.flatMap GraphEntry.ofText
  := by
  rw [graphText, GraphEntry.ofText_join, List.flatMap_append, List.flatMap_append]
  apply List.append_nil

/-- The lines of the node at a position. -/
def linesAt (t : Tree) (id : NodeId) : List String :=
  (t.get? id).elim [] (t.graphLines id)

/-- The description has the lines of the nodes in the order in which they are reached. -/
theorem graph_eq :
  t.graph = graphText ((reachedIds t.visits).flatMap t.linesAt)
  := by
  rw [graph, reached, visits]
  congr 1
  generalize Array.replicate t.size false = visited
  generalize t.root.toList = stack
  fun_induction visitsFrom t visited stack with
  | case1 => rfl
  | case2 visited top rest hget ih => apply ih
  | case3 visited top rest n hget hnew ih =>
    change t.graphLines top n ++ _ = List.flatMap _ (top :: reachedIds _)
    rw [List.flatMap_cons, linesAt, hget, ← ih]
    rfl
  | case4 visited top rest n hget hold ih => apply ih

/-- The description tells of the nodes that are reached, in the order of the walk. -/
theorem ofText_graph :
  GraphEntry.ofText t.graph = (reachedIds t.visits).flatMap t.entriesAt
  := by
  rw [graph_eq, ofText_graphText, List.flatMap_assoc]
  apply List.flatMap_congr
  intro id hid
  obtain ⟨n, hget⟩ : ∃ n, t.get? id = some n :=
    ⟨_, Array.getElem?_eq_getElem (lt_size_of_mem_reachedIds hid)⟩
  rw [linesAt, entriesAt, childrenAt, hget]
  apply ofText_graphLines

/-- There is one record for each node. -/
theorem countP_isRecord (order : List NodeId) :
  (order.flatMap t.entriesAt).countP GraphEntry.isRecord = order.length
  := by
  induction order with
  | nil => rfl
  | cons id order ih =>
    have hedges : ((t.childrenAt id).map (GraphEntry.edge id)).countP GraphEntry.isRecord = 0 := by
      simp [GraphEntry.isRecord]
    rw [List.flatMap_cons, List.countP_append, ih, entriesAt, List.countP_cons_of_pos rfl, hedges,
      Nat.zero_add, Nat.add_comm, List.length_cons]

/-- Each node that is reached has a position. -/
theorem length_reached :
  t.reached.length = (reachedIds t.visits).length
  := by
  have hfst : t.reached.map (·.1) = reachedIds t.visits := by
    rw [reached, reachedIds, List.map_filterMap]
    congr 1
    funext visit
    cases visit <;> rfl
  rw [← hfst, List.length_map]

end Tree

/-! ### The loop that draws -/

/-- The state of the loop: the positions still to be drawn with the next one first, those drawn so
far, and the lines written so far. -/
structure Drawer where
  pending : List NodeId
  drawn : List NodeId := []
  lines : List String := []

namespace Drawer

/-- The loop before its first turn. -/
def start (t : Tree) : Drawer where
  pending := t.root.toList

/-- One turn of the loop; there is none when nothing is left to be drawn.  Positions outside the
arena and those drawn before are left out. -/
def step (t : Tree) (drawer : Drawer) : Option Drawer :=
  match drawer.pending with
  | [] => none
  | id :: pending =>
    match t.get? id with
    | none => some { drawer with pending }
    | some n =>
      if id ∈ drawer.drawn then some { drawer with pending }
      else
        some {
          pending := n.children ++ pending
          drawn := drawer.drawn ++ [id]
          lines := drawer.lines ++ t.graphLines id n }

/-- The loop comes from one state to another in a number of turns. -/
inductive Turns (t : Tree) : Nat → Drawer → Drawer → Prop where
  | refl (drawer : Drawer) : Turns t 0 drawer drawer
  | step {count : Nat} {drawer next final : Drawer} (hstep : drawer.step t = some next)
      (hnext : Turns t count next final) : Turns t (count + 1) drawer final

variable {t : Tree}

/-- Turns of the loop after other turns. -/
theorem Turns.trans {count further : Nat} {drawer middle final : Drawer}
    (h : Turns t count drawer middle) (h' : Turns t further middle final) :
  Turns t (count + further) drawer final
  := by
  induction h with
  | refl =>
    rw [Nat.zero_add]
    apply h'
  | step hstep hnext ih =>
    rw [Nat.add_right_comm]
    apply Turns.step hstep (ih h')

/-- The loop draws what is met from the links on top of its stack in depth-first order.  It takes
one turn for each of these links, and one for each link below them. -/
theorem turns_of_depthFirst {seen links order : List NodeId} (h : t.DepthFirst seen links order)
    (pending : List NodeId) (lines : List String) :
  Turns t (links.length + (order.flatMap t.childrenAt).length)
    { pending := links ++ pending, drawn := seen, lines }
    { pending, drawn := seen ++ order, lines := lines ++ order.flatMap t.linesAt }
  := by
  induction h generalizing pending lines with
  | nil seen =>
    simp only [List.flatMap_nil, List.append_nil]
    apply Turns.refl
  | dangling hget hrest ih =>
    rw [List.length_cons, Nat.add_right_comm]
    apply Turns.step _ (ih pending lines)
    simp [step, hget]
  | @again seen rest order id hseen hrest ih =>
    rw [List.length_cons, Nat.add_right_comm]
    apply Turns.step _ (ih pending lines)
    cases hget : t.get? id <;> simp [step, hget, hseen]
  | @node seen rest below order id n hget hnew hbelow hrest ihb ihr =>
    have hdraw : step t { pending := id :: rest ++ pending, drawn := seen, lines }
        = some { pending := n.children ++ (rest ++ pending), drawn := seen ++ [id],
                 lines := lines ++ t.linesAt id } := by
      simp [step, hget, hnew, Tree.linesAt]
    have hchildren : t.childrenAt id = n.children := by
      rw [Tree.childrenAt, hget]
      rfl
    -- the children are on top of the stack now, so what is below them is drawn before the rest
    have hinner := ihb (rest ++ pending) (lines ++ t.linesAt id)
    rw [List.append_assoc, List.singleton_append] at hinner
    have hturns := Turns.step hdraw (hinner.trans (ihr pending _))
    convert hturns using 1
    · simp only [List.length_cons, List.flatMap_cons, List.flatMap_append, List.length_append,
        hchildren]
      omega
    · simp only [List.flatMap_cons, List.flatMap_append, List.append_assoc, List.cons_append]

end Drawer

namespace Tree

variable {t : Tree}

/-- A node has at most two children. -/
theorem length_childrenAt_le (ids : List NodeId) :
  (ids.flatMap t.childrenAt).length ≤ 2 * ids.length
  := by
  induction ids with
  | nil => apply Nat.le_refl
  | cons id ids ih =>
    have hchildren : (t.childrenAt id).length ≤ 2 := by
      rw [childrenAt]
      cases t.get? id with
      | none => apply Nat.zero_le
      | some n =>
        simp only [Option.elim_some, Node.children, List.length_append]
        cases n.left <;> cases n.right <;> simp
    rw [List.flatMap_cons, List.length_append, List.length_cons]
    omega

/-- No more nodes are reached than there are. -/
theorem length_reachedIds_le :
  (reachedIds t.visits).length ≤ t.size
  := by
  rw [← List.length_range (n := t.size)]
  apply ((nodup_reachedIds _ _).subperm _).length_le
  intro id hid
  apply List.mem_range.mpr (lt_size_of_mem_reachedIds hid)

/-- The loop ends with the description of the tree, after at most one turn for the root and two for
each position of the arena. -/
theorem exists_turns_graph :
  ∃ count final, count ≤ 2 * t.size + 1 ∧ Drawer.Turns t count (.start t) final
    ∧ final.step t = none ∧ final.drawn = reachedIds t.visits ∧ t.graph = graphText final.lines
  := by
  have hturns := Drawer.turns_of_depthFirst (t.depthFirst_visits) [] []
  rw [List.append_nil] at hturns
  refine ⟨_, _, ?_, hturns, rfl, rfl, graph_eq⟩
  have hroot : t.root.toList.length ≤ 1 := by cases t.root <;> simp
  have hchildren := t.length_childrenAt_le (reachedIds t.visits)
  have hreached := t.length_reachedIds_le
  omega

/-- Verification reports how many nodes are reached and counted and what is found, if there is a
root. -/
theorem events_verifyTree :
  (verifyTree t).events
    = if t.root.isSome then [.verified t.reached.length t.live t.verify] else []
  := by
  have hend : (if t.verify.isEmpty then pure () else .fail (.verify t.verify) : Run Unit).events
      = [] := by
    split <;> rfl
  dsimp only [verifyTree]
  split
  · change _ ++ _ = _
    rw [hend, List.append_nil]
    rfl
  · apply hend

/-- The description of every tree, whatever its links are, tells of the nodes of the arena that can
be reached from the root, each one once, in depth-first order, and after each node of the links to
its children, also of those that lead nowhere.  It is written in a bounded number of turns, and has
as many records as verification reports nodes. -/
theorem graph_tells_reachable (t : Tree) :
  ∃ order, t.DepthFirst [] t.root.toList order
    ∧ (∀ other, t.DepthFirst [] t.root.toList other → other = order)
    ∧ order.Nodup
    ∧ (∀ id, id ∈ order ↔ t.Reachable id ∧ id < t.size)
    ∧ GraphEntry.ofText t.graph
      = (order.flatMap fun id => .record id :: (t.childrenAt id).map (.edge id))
    ∧ (∃ count final, count ≤ 2 * t.size + 1 ∧ Drawer.Turns t count (.start t) final
      ∧ final.step t = none ∧ final.drawn = order ∧ t.graph = graphText final.lines)
    ∧ (GraphEntry.ofText t.graph).countP GraphEntry.isRecord = t.reached.length
    ∧ (verifyTree t).events
      = if t.root.isSome then
          [.verified ((GraphEntry.ofText t.graph).countP GraphEntry.isRecord) t.live t.verify]
        else []
  := by
  have hcount : (GraphEntry.ofText t.graph).countP GraphEntry.isRecord = t.reached.length := by
    rw [ofText_graph, countP_isRecord, length_reached]
  refine ⟨reachedIds t.visits, depthFirst_visits, fun other h => h.unique depthFirst_visits,
    nodup_reachedIds _ _, fun id => mem_reachedIds_iff, ofText_graph, exists_turns_graph, hcount,
    ?_⟩
  rw [hcount, events_verifyTree]

end Tree

end StackCompiler
