import StackCompiler.Text.Quoted
import StackCompiler.Token.Keyword

/-!
# Scanning

A source is cut into tokens from left to right.  Blanks separate tokens and are skipped, the
longest keyword counts wherever one starts, and only where none does is a number or a name read.
A character that starts nothing, a number that is not finite and a name that is too long end the
scan with an error.  The source ends at its end or at the first NUL character.
-/

namespace StackCompiler

/-- Why a source cannot be cut into tokens. -/
inductive ScanFault where
  | unexpectedCharacter (c : Char)
  | malformedNumber
  | nameTooLong (length : Nat)
deriving DecidableEq, Repr

/-- A fault and the bytes of the source that cause it. -/
structure ScanError where
  fault : ScanFault
  span : Span
deriving DecidableEq, Repr

/-- Names may have at most this many characters. -/
def maxNameLength : Nat := 50

/-- The fault as messages show it. -/
def ScanFault.message : ScanFault → String
  | unexpectedCharacter c => "unexpected character " ++ Text.quotedChar c
  | malformedNumber => "malformed number"
  | nameTooLong length =>
    "identifier is " ++ toString length ++ " bytes long, the limit is " ++ toString maxNameLength

/-- The error as messages show it. -/
def ScanError.message (error : ScanError) : String :=
  error.fault.message ++ " at " ++ error.span.text

namespace Token

/-- The digits before and after the point of the longest number at the front of a text, and the
number of characters it takes. -/
def numeral? (text : List Char) : Option (List Char × List Char × Nat) :=
  let whole := text.takeWhile Char.isDigit
  match whole, text.drop whole.length with
  | [], '.' :: rest =>
    match rest.takeWhile Char.isDigit with
    | [] => none
    | fraction => some ([], fraction, 1 + fraction.length)
  | [], _ => none
  | _, '.' :: rest =>
    let fraction := rest.takeWhile Char.isDigit
    some (whole, fraction, whole.length + 1 + fraction.length)
  | _, _ => some (whole, [], whole.length)

/-- The longest name at the front of a text: a letter followed by letters and digits. -/
def name? : List Char → Option (List Char)
  | c :: text => if c.isAlpha then some (c :: text.takeWhile Char.isAlphanum) else none
  | [] => none

/-- A token or a fault at the front of a text that begins with `c`, in either case with the number
of characters it takes. -/
def lexeme (c : Char) (text : List Char) : Except ScanFault TokenKind × Nat :=
  match Keyword.longest? (c :: text) with
  | some (kind, length) => (.ok kind, length)
  | none =>
    match numeral? (c :: text) with
    | some (whole, fraction, length) =>
      let value := Binary64.ofDigits false whole fraction 0
      (if value.isFinite then .ok (.number value) else .error .malformedNumber, length)
    | none =>
      match name? (c :: text) with
      | some name =>
        (if name.length ≤ maxNameLength then .ok (.variable (String.ofList name))
          else .error (.nameTooLong name.length), name.length)
      | none => (.error (.unexpectedCharacter c), 1)

/-- The tokens of a text whose first character stands at the given position. -/
def scanFrom (position : Nat) : List Char → Except ScanError (List Token)
  | [] => .ok [{ kind := .endOfInput, span := ⟨position, position⟩ }]
  | c :: text =>
    if Text.isBlank c then scanFrom (position + c.utf8Size) text
    else
      let (found, length) := lexeme c text
      let span := Span.ofLength position (Text.byteLength ((c :: text).take length))
      match found with
      | .error fault => .error { fault, span }
      | .ok kind => do
        let tokens ← scanFrom span.stop (text.drop (length - 1))
        return { kind, span } :: tokens
termination_by text => text.length
decreasing_by all_goals (simp only [List.length_cons, List.length_drop]; omega)

/-- The part of a source that counts: all of it, or what stands before the first NUL character. -/
def sourceText (source : String) : List Char :=
  source.toList.takeWhile (· != '\x00')

/-- The tokens of a source, the last of which is the end of the input. -/
def scan (source : String) : Except ScanError (List Token) :=
  scanFrom 0 (sourceText source)

end Token

end StackCompiler
