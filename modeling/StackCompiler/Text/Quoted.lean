import StackCompiler.Text.Extending
import StackCompiler.Text.Unprinted

/-!
# Quoted text

Characters and strings as messages show them: between quotes, with an escape for the quote, the
backslash and a few control characters, and the code point of every character that would not be
visible on its own.
-/

namespace StackCompiler.Text

/-- One character as it stands between the given quotes. -/
def escaped (quote c : Char) : List Char :=
  if c == quote || c == '\\' then ['\\', c]
  else if c == '\x00' then ['\\', '0']
  else if c == '\t' then ['\\', 't']
  else if c == '\r' then ['\\', 'r']
  else if c == '\n' then ['\\', 'n']
  else if isExtending c || isUnprinted c then
    "\\u\x7b".toList ++ Nat.toDigits 16 c.toNat ++ "\x7d".toList
  else [c]

/-- A character between single quotes. -/
def quotedChar (c : Char) : String :=
  String.ofList ('\'' :: escaped '\'' c ++ ['\''])

/-- A text between double quotes. -/
def quoted (text : String) : String :=
  String.ofList ('"' :: text.toList.flatMap (escaped '"') ++ ['"'])

end StackCompiler.Text
