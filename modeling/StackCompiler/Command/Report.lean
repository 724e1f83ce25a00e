import StackCompiler.Error
import StackCompiler.Text.Lines

/-!
# Error reports

An error in a text is shown with the lines it is about.  The lines are framed, the place of the
error is red, and an arrow leads from it to the message.  Columns are counted in bytes.
-/

namespace StackCompiler

namespace Report

/-- A text in red. -/
def red (text : String) : String := "\x1b[31m" ++ text ++ "\x1b[0m"

/-- The message of an error under a heading of its own. -/
def heading (error : CompileError) : String :=
  "\x1b[1;31merror:\x1b[0m " ++ error.message ++ "\n"

/-- The last character that starts before `limit`, where the text starts at `position`. -/
def lastBefore (limit position : Nat) : List Char → Option Span
  | [] => none
  | c :: text =>
    if position < limit then
      some ((lastBefore limit (position + c.utf8Size) text).getD (.ofLength position c.utf8Size))
    else none

/-- A span that can be seen: an empty one is replaced by the character before it, if there is
one. -/
def visibleSpan (source : List Char) (span : Span) : Span :=
  if span.isEmpty then (lastBefore span.start 0 source).getD span else span

/-- A row of a report: a line of the text, or a part of the drawing below it. -/
inductive Row where
  | line (number : Nat) (text : String)
  | drawing (text : String)
deriving DecidableEq, Repr

/-- The row with the numbers of lines in so many columns. -/
def Row.text (columns : Nat) : Row → String
  | .line number text => Text.rightAligned columns (toString number) ++ " │ " ++ text ++ "\n"
  | .drawing text => Text.repeated columns ' ' ++ " ┆ " ++ text ++ "\n"

/-- A line of the text with its number, counted from one. -/
structure Numbered where
  number : Nat
  line : TextLine
deriving DecidableEq, Repr

/-- The lines that a span touches, from the one where it starts to the one where it stops. -/
def touched (source : List Char) (span : Span) : List Numbered :=
  let numbered := (Text.lines source).zipIdx.map fun (line, index) => ⟨index + 1, line⟩
  numbered.filter fun n => span.start ≤ n.line.stop && n.line.start ≤ span.stop

/-- The rows of an error inside one line. -/
def rowsInside (message : String) (span : Span) (n : Numbered) : List Row :=
  let (before, rest) := Text.splitAtByte (span.start - n.line.start) n.line.text
  let (code, after) := Text.splitAtByte (span.stop - span.start) rest
  let spaces (count : Nat) := Text.repeated count ' '
  let dashes (count : Nat) := Text.repeated count '─'
  let b := Text.byteLength before
  let a := Text.byteLength after
  let left := Text.byteLength code / 2
  let right := Text.byteLength code - left - 1
  [ .line n.number (String.ofList before ++ red (String.ofList code) ++ String.ofList after),
    .drawing (spaces b ++ red (dashes left ++ "┬" ++ dashes right) ++ spaces a),
    .drawing (spaces b ++ red (spaces left ++ "│" ++ spaces right) ++ spaces a),
    .drawing (spaces (b + left) ++ red ("╰" ++ dashes (right + a + 1)) ++ " " ++ red message) ]

/-- The rows of the line where an error starts that goes on in the next line. -/
def rowsAtStart (span : Span) (n : Numbered) : List Row :=
  let (before, code) := Text.splitAtByte (span.start - n.line.start) n.line.text
  let b := Text.byteLength before
  [ .line n.number ("  " ++ String.ofList before ++ red (String.ofList code)),
    .drawing ("  " ++ Text.repeated b ' ' ++ red "▲"),
    .drawing (red ("╭" ++ Text.repeated (b + 1) '─' ++ "╯")) ]

/-- The rows of a line in the middle of an error. -/
def rowsBetween (n : Numbered) : List Row :=
  [ .line n.number (red "│" ++ " " ++ red (String.ofList n.line.text)),
    .drawing (red "│" ++ Text.repeated (Text.byteLength n.line.text) ' ') ]

/-- The rows of the line where an error stops that started before. -/
def rowsAtStop (message : String) (span : Span) (n : Numbered) : List Row :=
  let (code, after) := Text.splitAtByte (span.stop - n.line.start) n.line.text
  let spaces (count : Nat) := Text.repeated count ' '
  let dashes (count : Nat) := Text.repeated count '─'
  let m := Text.byteLength code
  let z := Text.byteLength after
  [ .line n.number (red "│" ++ " " ++ red (String.ofList code) ++ String.ofList after),
    .drawing (red "│" ++ spaces m ++ red "▲" ++ spaces z),
    .drawing (red "│" ++ spaces m ++ red "│" ++ spaces z),
    .drawing (red ("╰" ++ dashes m ++ "┴" ++ dashes (z + 1)) ++ " " ++ red message) ]

/-- The rows of the lines after the first one. -/
def rowsAfter (message : String) (span : Span) : List Numbered → List Row
  | [] => []
  | [last] => rowsAtStop message span last
  | n :: rest => rowsBetween n ++ rowsAfter message span rest

/-- The rows of an error in the lines that it touches. -/
def rows (message : String) (span : Span) : List Numbered → List Row
  | [] => []
  | [only] => rowsInside message span only
  | first :: rest => rowsAtStart span first ++ rowsAfter message span rest

/-- The framed lines of an error in the text with the given name. -/
def block (name message : String) (source : List Char) (span : Span) : String :=
  let lines := touched source span
  let columns := ((lines.getLast?.map (·.number)).map fun n => (toString n).length).getD 0
  let edge := Text.repeated columns ' '
  edge ++ " ╭─[" ++ name ++ "]\n"
    ++ edge ++ " │\n"
    ++ String.join ((rows message span lines).map (·.text columns))
    ++ Text.repeated (columns + 1) '─' ++ "╯\n"

end Report

/-- What is shown of an error in the text with the given name. -/
def CompileError.report (error : CompileError) (name source : String) : String :=
  let text := source.toList
  match error.span?.map (Report.visibleSpan text) with
  | none => Report.heading error
  | some span =>
    if span.isEmpty then Report.heading error
    else Report.heading error ++ Report.block name error.message text span

end StackCompiler
