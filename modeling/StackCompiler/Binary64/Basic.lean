/-!
# Binary64 numbers

A binary64 number is a sign together with a magnitude, the 63 bits that hold the exponent field
and the fraction.  Finite magnitudes are ordered as the numbers they stand for, so rounding up
past the largest fraction of one exponent gives the least fraction of the next one, and rounding
past the largest finite number gives infinity.

All arithmetic is exact arithmetic of natural numbers; no machine number is involved, and the two
signs of a value that is not a number are told apart.
-/

namespace StackCompiler

/-- A binary64 number: its sign, and its exponent field and fraction read as one natural number. -/
structure Binary64 where
  negative : Bool
  magnitude : Nat
  magnitude_lt : magnitude < Nat.pow 2 63 := by decide
deriving DecidableEq

namespace Binary64

/-- The number of fractions that share one exponent field. -/
def fractions : Nat := Nat.pow 2 52

/-- The magnitude of the infinities: the exponent field is all ones and the fraction is zero. -/
def infiniteMagnitude : Nat := 0x7FF * Nat.pow 2 52

/-- Zero with the given sign. -/
def zero (negative : Bool) : Binary64 := { negative, magnitude := 0 }

/-- Infinity with the given sign. -/
def infinity (negative : Bool) : Binary64 := { negative, magnitude := 0x7FF * Nat.pow 2 52 }

/-- The value that is not a number, with the given sign. -/
def nan (negative : Bool) : Binary64 :=
  { negative, magnitude := 0x7FF * Nat.pow 2 52 + Nat.pow 2 51 }

instance : Inhabited Binary64 := ⟨zero false⟩

/-- The sign bit followed by the magnitude, as one 64-bit word. -/
def bits (x : Binary64) : Nat :=
  (if x.negative then Nat.pow 2 63 else 0) + x.magnitude

/-- Whether the number is neither infinite nor the value that is not a number. -/
def isFinite (x : Binary64) : Bool :=
  x.magnitude < infiniteMagnitude

/-- Whether the value is not a number. -/
def isNaN (x : Binary64) : Bool :=
  infiniteMagnitude < x.magnitude

/-- The integer that a finite number's magnitude is a power of two times. -/
def significand (x : Binary64) : Nat :=
  if x.magnitude / fractions = 0 then x.magnitude % fractions
  else fractions + x.magnitude % fractions

/-- The exponent of the power of two that scales the significand of a finite number. -/
def scale (x : Binary64) : Int :=
  if x.magnitude / fractions = 0 then -1074
  else (x.magnitude / fractions : Nat) - 1075

/-- The number with the given sign and magnitude, infinite if the magnitude is out of range. -/
def ofMagnitude (negative : Bool) (magnitude : Nat) : Binary64 :=
  if h : magnitude < infiniteMagnitude then
    { negative, magnitude, magnitude_lt := Nat.lt_trans h (by decide) }
  else infinity negative

/-- The integer nearest to `num / den`, the even one of two that are equally near. -/
def nearestQuotient (num den : Nat) : Nat :=
  let q := num / den
  let r := num % den
  if 2 * r < den then q
  else if den < 2 * r then q + 1
  else if q % 2 = 0 then q else q + 1

/-- The exponent `k` with `2 ^ k ≤ num / den < 2 ^ (k + 1)`, for positive `num` and `den`. -/
def binade (num den : Nat) : Int :=
  let k : Int := (num.log2 : Int) - den.log2
  if den * Nat.pow 2 k.toNat ≤ num * Nat.pow 2 (-k).toNat then k else k - 1

/-- The binary64 number nearest to `num / den`, the one with an even magnitude of two that are
equally near. -/
def ofRatio (negative : Bool) (num den : Nat) : Binary64 :=
  if num = 0 then zero negative
  else
    let q := max (binade num den - 52) (-1074)
    let m := nearestQuotient (num * Nat.pow 2 (-q).toNat) (den * Nat.pow 2 q.toNat)
    ofMagnitude negative ((q + 1074).toNat * fractions + m)

/-- The binary64 number nearest to `digits * 10 ^ exponent`.  Exponents that are certain to give
infinity or zero are settled without computing the power. -/
def ofDecimal (negative : Bool) (digits : Nat) (exponent : Int) : Binary64 :=
  if digits = 0 then zero negative
  else if 400 < exponent then infinity negative
  else if exponent + digits.log2 + 400 < 0 then zero negative
  else ofRatio negative (digits * Nat.pow 10 exponent.toNat) (Nat.pow 10 (-exponent).toNat)

/-- The binary64 number nearest to a natural number. -/
def ofNat (n : Nat) : Binary64 :=
  ofRatio false n 1

/-- The binary64 number nearest to an integer. -/
def ofInt (n : Int) : Binary64 :=
  ofRatio (n < 0) n.natAbs 1

/-- The value as an integer, if the number is finite and has no fractional part. -/
def integer? (x : Binary64) : Option Int :=
  let signed (n : Nat) : Int := if x.negative then -n else n
  if x.isFinite then
    let unit := Nat.pow 2 (-x.scale).toNat
    if x.significand % unit = 0 then
      some (signed (x.significand * Nat.pow 2 x.scale.toNat / unit))
    else none
  else none

end Binary64

end StackCompiler
