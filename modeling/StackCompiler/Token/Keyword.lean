import StackCompiler.Token.Basic

/-!
# Keywords

Every operator and every mark has a keyword, and the arithmetic operators also have a symbol.  A
keyword is found without regard to case, and a space in it stands for any blanks, at least one.
Where several keywords start, the longest counts.
-/

namespace StackCompiler.Keyword

/-- All keywords, each with the token it makes. -/
def all : List (String × TokenKind) :=
  [("Precious", .mark .separator),
   ("Unexpected", .mark .openParen),
   ("Journey", .mark .closeParen),
   ("Black", .mark .openBrace),
   ("Gates", .mark .closeBrace),
   ("A pony", .mark .assignEnd),
   ("Mellon", .mark .define),
   ("Fellowship", .mark .argumentsBegin),
   ("of the Ring", .mark .argumentsEnd),
   ("Gollum", .mark .comma),
   ("ADD", .binary (.arithmetic .add)),
   ("+", .binary (.arithmetic .add)),
   ("SUB", .binary (.arithmetic .sub)),
   ("-", .binary (.arithmetic .sub)),
   ("MUL", .binary (.arithmetic .mul)),
   ("*", .binary (.arithmetic .mul)),
   ("DIV", .binary (.arithmetic .div)),
   ("/", .binary (.arithmetic .div)),
   ("POW", .binary (.arithmetic .pow)),
   ("^", .binary (.arithmetic .pow)),
   ("==", .binary (.comparison .eq)),
   (">", .binary (.comparison .gt)),
   ("<", .binary (.comparison .lt)),
   (">=", .binary (.comparison .ge)),
   ("<=", .binary (.comparison .le)),
   ("!=", .binary (.comparison .ne)),
   ("Give him", .binary .assign),
   ("SIN", .unary (.math .sin)),
   ("COS", .unary (.math .cos)),
   ("SQRT", .unary (.math .sqrt)),
   ("LN", .unary (.math .ln)),
   ("!", .unary (.math .not)),
   ("OUT", .unary (.output .out)),
   ("OUT_S", .unary (.output .outS)),
   ("IN", .unary .input),
   ("Return of the King", .unary .ret),
   ("One does not simply walk into Mordor", .control .branch),
   ("So it begins", .control .loop)]

/-- The number of characters that a keyword takes at the front of a text, if it stands there. -/
def length? : (keyword text : List Char) → Option Nat
  | [], _ => some 0
  | ' ' :: keyword, text =>
    match text.takeWhile Text.isBlank with
    | [] => none
    | blanks => (length? keyword (text.drop blanks.length)).map (blanks.length + ·)
  | _ :: _, [] => none
  | letter :: keyword, c :: text =>
    if letter.toLower == c.toLower then (length? keyword text).map (1 + ·) else none

/-- The longer of two matches, and the second if they are equally long. -/
def longer : Option (TokenKind × Nat) → TokenKind × Nat → Option (TokenKind × Nat)
  | none, found => some found
  | some best, found => if best.2 ≤ found.2 then some found else some best

/-- The longest keyword at the front of a text, with the number of characters it takes. -/
def longest? (text : List Char) : Option (TokenKind × Nat) :=
  let found := all.filterMap fun (keyword, kind) =>
    (length? keyword.toList text).map fun length => (kind, length)
  found.foldl longer none

end StackCompiler.Keyword
