/-!
# Spans

Positions in a text are counted in bytes of its UTF-8 form.
-/

namespace StackCompiler

/-- The bytes of a text from `start` up to but not including `stop`. -/
structure Span where
  start : Nat
  stop : Nat
deriving DecidableEq, Repr

namespace Span

/-- The span that starts at `start` and covers `length` bytes. -/
def ofLength (start length : Nat) : Span := ⟨start, start + length⟩

/-- Whether the span covers no byte. -/
def isEmpty (span : Span) : Bool := span.stop ≤ span.start

/-- The two ends of a span, as messages show them. -/
def text (span : Span) : String :=
  toString span.start ++ ".." ++ toString span.stop

end Span

namespace Text

/-- The number of bytes that characters take. -/
def byteLength : List Char → Nat
  | [] => 0
  | c :: text => c.utf8Size + byteLength text

/-- Whether a character separates words: space, tab, line feed, form feed or carriage return. -/
def isBlank (c : Char) : Bool :=
  c == ' ' || c == '\t' || c == '\n' || c == '\x0c' || c == '\r'

@[simp]
theorem byteLength_nil :
  byteLength [] = 0
  := rfl

@[simp]
theorem byteLength_cons (c : Char) (text : List Char) :
  byteLength (c :: text) = c.utf8Size + byteLength text
  := rfl

@[simp]
theorem byteLength_append (text rest : List Char) :
  byteLength (text ++ rest) = byteLength text + byteLength rest
  := by
  induction text with
  | nil => simp
  | cons c text ih => simp [ih, Nat.add_assoc]

end Text

end StackCompiler
