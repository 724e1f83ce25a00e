import StackCompiler.Binary64.Basic

/-!
# Decimal text of binary64 numbers

A number is written with the fewest digits that read back to it: the coarsest decimal grid on
which one of the number's two neighbours reads back decides how many digits there are, the nearer
of two such neighbours decides which, and of two equally near ones the larger is taken.  The
digits are laid out positionally, without an exponent.

Reading takes the longest numeral at the front of a text and rounds it to the nearest number.
-/

namespace StackCompiler

/-- The decimal number `digits * 10 ^ exponent`. -/
structure Decimal where
  digits : Nat
  exponent : Int
deriving DecidableEq

namespace Decimal

/-- The decimal numeral without an exponent and without zeros at the end of its fraction. -/
def numeral (d : Decimal) : List Char :=
  if 0 ≤ d.exponent then Nat.toDigits 10 (d.digits * Nat.pow 10 d.exponent.toNat)
  else
    let places := (-d.exponent).toNat
    let whole := d.digits / Nat.pow 10 places
    let fraction := (Nat.toDigits 10 (d.digits % Nat.pow 10 places)).leftpad places '0'
    let kept := (fraction.reverse.dropWhile (· == '0')).reverse
    Nat.toDigits 10 whole ++ if kept.isEmpty then [] else '.' :: kept

end Decimal

namespace Binary64

/-- The exact value of a finite number without its sign. -/
def exactDecimal (x : Binary64) : Decimal :=
  if 0 ≤ x.scale then { digits := x.significand * Nat.pow 2 x.scale.toNat, exponent := 0 }
  else { digits := x.significand * Nat.pow 5 (-x.scale).toNat, exponent := x.scale }

/-- Whether a decimal rounds to the magnitude of `x`. -/
def readsBack (x : Binary64) (d : Decimal) : Bool :=
  (ofDecimal false d.digits d.exponent).magnitude == x.magnitude

/-- Of the two neighbours of `x` on the grid of multiples of `10 ^ exponent`, the nearer one that
reads back, and the larger one if both do and are equally near. -/
def gridNeighbour? (x : Binary64) (exponent : Int) : Option Decimal :=
  let num := x.significand * Nat.pow 2 x.scale.toNat * Nat.pow 10 (-exponent).toNat
  let den := Nat.pow 2 (-x.scale).toNat * Nat.pow 10 exponent.toNat
  let below : Decimal := { digits := num / den, exponent }
  let above : Decimal := { digits := num / den + 1, exponent }
  match x.readsBack below, x.readsBack above with
  | true, true => some (if 2 * (num % den) < den then below else above)
  | true, false => some below
  | false, true => some above
  | false, false => none

/-- The neighbour of `x` on the coarsest of the grids `10 ^ exponent`, `10 ^ (exponent - 1)`, … on
which one reads back, and the exact value if none of the given number of grids has one. -/
def coarsest (x : Binary64) : (grids : Nat) → (exponent : Int) → Decimal
  | 0, _ => x.exactDecimal
  | grids + 1, exponent =>
    match x.gridNeighbour? exponent with
    | some d => d
    | none => x.coarsest grids (exponent - 1)

/-- The decimal with the fewest digits that reads back to the magnitude of `x`.  The first grid is
that of a power of ten above `x`; seventeen digits always suffice. -/
def shortest (x : Binary64) : Decimal :=
  let top : Int := ((x.significand.log2 + x.scale + 1) * 30103) / 100000 + 2
  x.coarsest 24 top

/-- The text of a number. -/
def text (x : Binary64) : String :=
  if x.isNaN then "NaN"
  else
    let sign := if x.negative then "-" else ""
    if x.isFinite then
      sign ++ String.ofList (if x.magnitude = 0 then ['0'] else x.shortest.numeral)
    else sign ++ "inf"

/-- The text of the 64-bit word of a number, as 16 hexadecimal digits. -/
def hexText (x : Binary64) : String :=
  String.ofList ((Nat.toDigits 16 x.bits).leftpad 16 '0')

instance : ToString Binary64 := ⟨text⟩

/-! ### Reading -/

/-- The number written by the digits before and after the point and a power of ten. -/
def ofDigits (negative : Bool) (whole fraction : List Char) (exponent : Int) : Binary64 :=
  ofDecimal negative (Nat.ofDigitChars 10 (whole ++ fraction) 0) (exponent - fraction.length)

/-- The digits of the fraction at the front of a text: a point and at least one digit. -/
def fractionDigits : List Char → List Char
  | '.' :: text => text.takeWhile Char.isDigit
  | _ => []

/-- The power of ten that the digits at the front of a text give, and the number of characters they
take together with the `before` characters in front of them; no digits give no power. -/
def power (negative : Bool) (before : Nat) (text : List Char) : Int × Nat :=
  match text.takeWhile Char.isDigit with
  | [] => (0, 0)
  | digits =>
    let n : Nat := Nat.ofDigitChars 10 digits 0
    (if negative then -n else n, before + digits.length)

/-- The power of ten that the exponent at the front of a text gives, and the number of characters it
takes: the mark `e` or `E`, a sign or none, and at least one digit. -/
def exponent : List Char → Int × Nat
  | mark :: text =>
    if mark == 'e' || mark == 'E' then
      match text with
      | '+' :: text => power false 2 text
      | '-' :: text => power true 2 text
      | text => power false 1 text
    else (0, 0)
  | [] => (0, 0)

/-- The longest numeral without a sign at the front of a text, with the number of characters it
takes: `inf`, `NaN`, or digits with an optional fraction and an optional exponent. -/
def scanUnsigned (negative : Bool) : List Char → Option (Binary64 × Nat)
  | 'i' :: 'n' :: 'f' :: _ => some (infinity negative, 3)
  | 'N' :: 'a' :: 'N' :: _ => some (nan negative, 3)
  | text =>
    match text.takeWhile Char.isDigit with
    | [] => none
    | whole =>
      let rest := text.drop whole.length
      let fraction := fractionDigits rest
      let places := if fraction.isEmpty then 0 else 1 + fraction.length
      let (power, length) := exponent (rest.drop places)
      some (ofDigits negative whole fraction power, whole.length + places + length)

/-- The longest numeral at the front of a text, with an optional minus sign, and the number of
characters it takes. -/
def scan : List Char → Option (Binary64 × Nat)
  | '-' :: text => (scanUnsigned true text).map fun (x, length) => (x, 1 + length)
  | text => scanUnsigned false text

/-- The number that a whole text writes. -/
def ofText? (text : String) : Option Binary64 :=
  match scan text.toList with
  | some (x, length) => if length = text.length then some x else none
  | none => none

end Binary64

end StackCompiler
