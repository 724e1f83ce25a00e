import StackCompiler.Text.Span

/-!
# Lines

The lines of a text with the places where they start.  A line ends before a line feed or at the end
of the text, so there is always at least one.
-/

namespace StackCompiler

/-- A line of a text and the position of its first byte in the text. -/
structure TextLine where
  start : Nat
  text : List Char
deriving DecidableEq, Repr

namespace TextLine

/-- The position just after the last byte of a line. -/
def stop (line : TextLine) : Nat := line.start + Text.byteLength line.text

end TextLine

namespace Text

/-- The same character several times. -/
def repeated (count : Nat) (c : Char) : String :=
  String.ofList (List.replicate count c)

/-- A text, moved to the right end of so many columns. -/
def rightAligned (columns : Nat) (text : String) : String :=
  repeated (columns - text.length) ' ' ++ text

/-- A text cut at every line feed. -/
def splitLines : List Char → List (List Char)
  | [] => [[]]
  | '\n' :: rest => [] :: splitLines rest
  | c :: rest =>
    match splitLines rest with
    | [] => [[c]]
    | line :: lines => (c :: line) :: lines

/-- Successive lines with their places, the first of which starts at `start`. -/
def placeLines (start : Nat) : List (List Char) → List TextLine
  | [] => []
  | text :: lines => { start, text } :: placeLines (start + byteLength text + 1) lines

/-- The lines of a text. -/
def lines (text : List Char) : List TextLine :=
  placeLines 0 (splitLines text)

/-- A text in two parts, the first of which has the given number of bytes. -/
def splitAtByte (bytes : Nat) : List Char → List Char × List Char
  | [] => ([], [])
  | c :: text =>
    if bytes = 0 then ([], c :: text)
    else
      let (first, second) := splitAtByte (bytes - c.utf8Size) text
      (c :: first, second)

end Text

end StackCompiler
