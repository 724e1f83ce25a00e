import StackCompiler.Binary64.Decimal
import StackCompiler.Text.Span

/-!
# Symbols of the exchange format

A written tree is a sequence of symbols: parentheses, the mark of an absent child, and numbers.
Blanks may stand between symbols.
-/

namespace StackCompiler.Exchange

/-- A symbol of a written tree. -/
inductive Symbol where
  | opening
  | closing
  | absent
  | number (value : Binary64)
deriving DecidableEq

namespace Symbol

/-- The symbol as it is written. -/
def text : Symbol → String
  | opening => "("
  | closing => ")"
  | absent => "_"
  | number value => value.text

/-- The symbol as messages show it. -/
def shown : Symbol → String
  | number value => "number " ++ value.text
  | symbol => "`" ++ symbol.text ++ "`"

end Symbol

/-- A symbol and the bytes of the text that it stands for. -/
structure Placed where
  symbol : Symbol
  span : Span
deriving DecidableEq

/-- The symbol at the front of a text, with the number of characters it takes. -/
def Symbol.scan? : List Char → Option (Symbol × Nat)
  | '(' :: _ => some (opening, 1)
  | ')' :: _ => some (closing, 1)
  | '_' :: _ => some (absent, 1)
  | text => (Binary64.scan text).map fun (value, length) => (number value, length)

/-- The symbols of a text whose first character stands at the given position, or the span of the
first character that starts none. -/
def scanFrom (position : Nat) : List Char → Except Span (List Placed)
  | [] => .ok []
  | c :: text =>
    if Text.isBlank c then scanFrom (position + c.utf8Size) text
    else
      match Symbol.scan? (c :: text) with
      | none => .error (Span.ofLength position c.utf8Size)
      | some (symbol, length) => do
        let span := Span.ofLength position (Text.byteLength ((c :: text).take length))
        let symbols ← scanFrom span.stop (text.drop (length - 1))
        return { symbol, span } :: symbols
termination_by text => text.length
decreasing_by all_goals (simp only [List.length_cons, List.length_drop]; omega)

end StackCompiler.Exchange
