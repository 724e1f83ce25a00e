import StackCompiler.Event

/-!
# Verbosity

How much of the log is shown.
-/

namespace StackCompiler

/-- The least important level that is shown, if any is. -/
structure Verbosity where
  limit : Option Level
deriving DecidableEq, Repr

namespace Verbosity

/-- The number of levels that are shown. -/
def rank (verbosity : Verbosity) : Nat :=
  (verbosity.limit.map (·.rank)).getD 0

/-- The verbosity that shows so many levels, at most all of them. -/
def ofRank : Nat → Verbosity
  | 0 => ⟨none⟩
  | 1 => ⟨some .error⟩
  | 2 => ⟨some .warn⟩
  | 3 => ⟨some .info⟩
  | 4 => ⟨some .debug⟩
  | _ => ⟨some .trace⟩

/-- The verbosity that shows so many levels more. -/
def raise (verbosity : Verbosity) (levels : Nat) : Verbosity :=
  ofRank (verbosity.rank + levels)

/-- Whether an event is shown. -/
def shows (verbosity : Verbosity) (event : Event) : Bool :=
  event.level.rank ≤ verbosity.rank

/-- The lines of the log for the events that are shown. -/
def log (verbosity : Verbosity) (events : List Event) : String :=
  String.join ((events.filter verbosity.shows).map (·.logLine))

/-- The number that decimal digits stand for, with or without a plus sign in front. -/
def rankOfDigits? (text : List Char) : Option Nat :=
  let digits :=
    match text with
    | '+' :: rest => rest
    | _ => text
  if digits.isEmpty || !digits.all Char.isDigit then none
  else some (digits.foldl (fun n c => 10 * n + (c.toNat - '0'.toNat)) 0)

/-- The verbosity with the given name in any case; an empty name means errors only. -/
def ofName? (name : String) : Option Verbosity :=
  match name.toLower with
  | "off" => some ⟨none⟩
  | "" | "error" => some ⟨some .error⟩
  | "warn" => some ⟨some .warn⟩
  | "info" => some ⟨some .info⟩
  | "debug" => some ⟨some .debug⟩
  | "trace" => some ⟨some .trace⟩
  | _ => none

/-- The verbosity that a word asks for, by the number of levels or by name. -/
def ofText? (text : String) : Option Verbosity :=
  match rankOfDigits? text.toList with
  | some rank => if rank ≤ 5 then some (ofRank rank) else none
  | none => ofName? text

end Verbosity

end StackCompiler
