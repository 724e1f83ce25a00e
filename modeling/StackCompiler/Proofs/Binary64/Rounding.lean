import Mathlib.Algebra.Order.Floor.Semifield
import Mathlib.Data.Int.Log
import Mathlib.Data.Rat.Floor
import Mathlib.Tactic.FieldSimp
import Mathlib.Tactic.Linarith
import Mathlib.Tactic.Positivity
import Mathlib.Tactic.Ring
import StackCompiler.Binary64.Basic

/-!
# Rounding to binary64 numbers

Rounding a quotient of natural numbers depends only on the rational number that it is.  A finite
number is what its own value rounds to, and small natural numbers are not changed by rounding.
-/

namespace StackCompiler

/-- A power with an integer exponent as a quotient of powers with natural exponents. -/
theorem zpow_eq_div {b : ℚ} (hb : b ≠ 0) (k : Int) :
  b ^ k = b ^ k.toNat / b ^ (-k).toNat
  := by
  rw [← zpow_natCast, ← zpow_natCast, ← zpow_sub₀ hb]
  congr 1
  omega

namespace Binary64

/-! ### Rational numbers -/

/-- The integer nearest to a number that is not negative, the even one of two that are equally
near. -/
def nearestEven (r : ℚ) : Nat :=
  if 2 * (r - ⌊r⌋₊) < 1 then ⌊r⌋₊
  else if 1 < 2 * (r - ⌊r⌋₊) then ⌊r⌋₊ + 1
  else if ⌊r⌋₊ % 2 = 0 then ⌊r⌋₊ else ⌊r⌋₊ + 1

/-- A natural number is not rounded. -/
theorem nearestEven_natCast (n : Nat) :
  nearestEven n = n
  := by
  simp [nearestEven]

/-- Nothing is rounded below its floor. -/
theorem floor_le_nearestEven (r : ℚ) :
  ⌊r⌋₊ ≤ nearestEven r
  := by
  unfold nearestEven
  split
  · apply Nat.le_refl
  · split
    · apply Nat.le_succ
    · split
      · apply Nat.le_refl
      · apply Nat.le_succ

/-- Nothing is rounded past a natural number. -/
theorem le_nearestEven {n : Nat} {r : ℚ} (h : (n : ℚ) ≤ r) :
  n ≤ nearestEven r
  := (Nat.le_floor h).trans (floor_le_nearestEven r)

/-- Less than one half is rounded to zero. -/
theorem nearestEven_eq_zero {r : ℚ} (h : r < 1 / 2) :
  nearestEven r = 0
  := by
  have hfloor : ⌊r⌋₊ = 0 := Nat.floor_eq_zero.mpr (by linarith)
  rw [nearestEven, hfloor, if_pos]
  push_cast
  linarith

/-- The quotient of natural numbers is rounded like the rational number. -/
theorem nearestQuotient_eq (num : Nat) {den : Nat} (hden : 0 < den) :
  nearestQuotient num den = nearestEven (num / den)
  := by
  have hfloor : ⌊(num / den : ℚ)⌋₊ = num / den := Nat.floor_div_eq_div num den
  have hpos : (0 : ℚ) < den := Nat.cast_pos.mpr hden
  have hrest : (num / den : ℚ) - (num / den : Nat) = (num % den : Nat) / den := by
    rw [eq_div_iff hpos.ne', sub_mul, div_mul_cancel₀ _ hpos.ne', sub_eq_iff_eq_add]
    exact_mod_cast (Nat.mod_add_div' num den).symm
  have hless : 2 * (num % den) < den ↔ 2 * ((num / den : ℚ) - (num / den : Nat)) < 1 := by
    rw [hrest, ← mul_div_assoc, div_lt_one hpos]
    exact_mod_cast Iff.rfl
  have hmore : den < 2 * (num % den) ↔ 1 < 2 * ((num / den : ℚ) - (num / den : Nat)) := by
    rw [hrest, ← mul_div_assoc, one_lt_div hpos]
    exact_mod_cast Iff.rfl
  simp only [nearestQuotient, nearestEven, hfloor, hless, hmore]

/-- The binary64 number nearest to a rational number that is not negative, with the given sign. -/
def ofRational (negative : Bool) (r : ℚ) : Binary64 :=
  if r = 0 then zero negative
  else
    let q := max (Int.log 2 r - 52) (-1074)
    ofMagnitude negative ((q + 1074).toNat * fractions + nearestEven (r / 2 ^ q))

/-- The logarithm is the exponent of the power of two below. -/
theorem log_eq {r : ℚ} {k : Int} (hlow : 2 ^ k ≤ r) (hhigh : r < 2 ^ (k + 1)) :
  Int.log 2 r = k
  := by
  have hpos : 0 < r := lt_of_lt_of_le (zpow_pos two_pos k) hlow
  apply le_antisymm
  · apply Int.lt_add_one_iff.mp
    apply (Int.lt_zpow_iff_log_lt Nat.one_lt_two hpos).mp
    exact_mod_cast hhigh
  · apply (Int.zpow_le_iff_le_log Nat.one_lt_two hpos).mp
    exact_mod_cast hlow

theorem zpow_log2_le {n : Nat} (hn : n ≠ 0) :
  (2 : ℚ) ^ (n.log2 : Int) ≤ n
  := by
  rw [zpow_natCast]
  exact_mod_cast Nat.log2_self_le hn

theorem lt_zpow_log2_add_one (n : Nat) :
  (n : ℚ) < 2 ^ (n.log2 + 1 : Int)
  := by
  rw [← Nat.cast_succ, zpow_natCast]
  exact_mod_cast Nat.lt_log2_self

/-- The binade of a quotient is the logarithm of the rational number. -/
theorem binade_eq {num den : Nat} (hnum : num ≠ 0) (hden : den ≠ 0) :
  binade num den = Int.log 2 (num / den : ℚ)
  := by
  have hpos : (0 : ℚ) < den := Nat.cast_pos.mpr (Nat.pos_of_ne_zero hden)
  -- The two logarithms give the binade up to one; the test in the definition settles which it is.
  generalize hk : (num.log2 : Int) - den.log2 = k
  have hhigh : (num / den : ℚ) < 2 ^ (k + 1) := by
    have hsum : k + 1 + den.log2 = num.log2 + 1 := by omega
    rw [div_lt_iff₀ hpos]
    calc (num : ℚ) < 2 ^ (num.log2 + 1 : Int) := lt_zpow_log2_add_one num
      _ = 2 ^ (k + 1) * 2 ^ (den.log2 : Int) := by rw [← zpow_add₀ two_ne_zero, hsum]
      _ ≤ 2 ^ (k + 1) * den := by
          apply mul_le_mul_of_nonneg_left (zpow_log2_le hden) (zpow_pos two_pos _).le
  have hlow : (2 ^ (k - 1) : ℚ) ≤ num / den := by
    have hsum : k - 1 + (den.log2 + 1) = num.log2 := by omega
    rw [le_div_iff₀ hpos]
    calc (2 ^ (k - 1) * den : ℚ) ≤ 2 ^ (k - 1) * 2 ^ (den.log2 + 1 : Int) := by
          apply mul_le_mul_of_nonneg_left (lt_zpow_log2_add_one den).le (zpow_pos two_pos _).le
      _ = 2 ^ (num.log2 : Int) := by rw [← zpow_add₀ two_ne_zero, hsum]
      _ ≤ num := zpow_log2_le hnum
  have htest : den * Nat.pow 2 k.toNat ≤ num * Nat.pow 2 (-k).toNat
      ↔ (2 ^ k : ℚ) ≤ num / den := by
    rw [zpow_eq_div two_ne_zero, div_le_div_iff₀ (by positivity) hpos, mul_comm]
    exact_mod_cast Iff.rfl
  rw [binade, hk]
  split
  · rename_i hle
    rw [log_eq (htest.mp hle) hhigh]
  · rename_i hlt
    rw [log_eq hlow]
    rw [sub_add_cancel]
    apply lt_of_not_ge (mt htest.mpr hlt)

/-- The number for a quotient is the one for the rational number. -/
theorem ofRatio_eq (negative : Bool) (num : Nat) {den : Nat} (hden : 0 < den) :
  ofRatio negative num den = ofRational negative (num / den)
  := by
  have hden' : (den : ℚ) ≠ 0 := Nat.cast_ne_zero.mpr hden.ne'
  unfold ofRatio ofRational
  by_cases hnum : num = 0
  · simp [hnum]
  · have hratio : (num / den : ℚ) ≠ 0 := div_ne_zero (Nat.cast_ne_zero.mpr hnum) hden'
    rw [if_neg hnum, if_neg hratio, binade_eq hnum hden.ne']
    dsimp only
    generalize max (Int.log 2 (num / den : ℚ) - 52) (-1074) = q
    have hpos : 0 < den * Nat.pow 2 q.toNat := Nat.mul_pos hden (Nat.pow_pos Nat.two_pos)
    rw [nearestQuotient_eq _ hpos, zpow_eq_div two_ne_zero q]
    congr 3
    push_cast [Nat.pow_eq]
    field_simp

/-! ### Finite numbers -/

/-- A significand and a scale that some finite number or one out of range has: the significand has
53 bits, or fewer if the scale is the least one. -/
structure Canonical (m : Nat) (s : Int) : Prop where
  lt : m < 2 ^ 53
  scale_le : -1074 ≤ s
  normal : 2 ^ 52 ≤ m ∨ s = -1074

/-- A number with a canonical significand and scale is not changed by rounding. -/
theorem ofRational_of_canonical {m : Nat} {s : Int} (h : Canonical m s) (hm : m ≠ 0)
    (negative : Bool) :
  ofRational negative (m * 2 ^ s) = ofMagnitude negative ((s + 1074).toNat * fractions + m)
  := by
  have hpos : (0 : ℚ) < m * 2 ^ s :=
    mul_pos (Nat.cast_pos.mpr (Nat.pos_of_ne_zero hm)) (zpow_pos two_pos s)
  have hhigh : (m * 2 ^ s : ℚ) < 2 ^ (s + 52 + 1) := by
    have hm : (m : ℚ) < 2 ^ (53 : Int) := by exact_mod_cast h.lt
    rw [add_assoc, add_comm, zpow_add₀ two_ne_zero]
    apply mul_lt_mul_of_pos_right hm (zpow_pos two_pos s)
  have hmax : max (Int.log 2 (m * 2 ^ s : ℚ) - 52) (-1074) = s := by
    rcases h.normal with hnormal | rfl
    · have hm : (2 : ℚ) ^ (52 : Int) ≤ m := by exact_mod_cast hnormal
      have hlow : (2 ^ (s + 52) : ℚ) ≤ m * 2 ^ s := by
        rw [add_comm, zpow_add₀ two_ne_zero]
        apply mul_le_mul_of_nonneg_right hm (zpow_pos two_pos s).le
      rw [log_eq hlow hhigh, add_sub_cancel_right, max_eq_left h.scale_le]
    · have hlog := (Int.lt_zpow_iff_log_lt Nat.one_lt_two hpos).mp (by exact_mod_cast hhigh)
      apply max_eq_right
      omega
  simp only [ofRational, if_neg hpos.ne', hmax, nearestEven_natCast,
    mul_div_cancel_right₀ _ (zpow_ne_zero s (two_ne_zero : (2 : ℚ) ≠ 0))]

/-- The value of a finite number without its sign. -/
def value (x : Binary64) : ℚ :=
  x.significand * 2 ^ x.scale

theorem fractions_eq :
  fractions = 4503599627370496
  := rfl

/-- Numbers with the least exponent field have fewer bits in their significand. -/
theorem significand_scale_cases (x : Binary64) :
  (x.magnitude / fractions = 0 ∧ x.significand = x.magnitude % fractions ∧ x.scale = -1074)
    ∨ (x.magnitude / fractions ≠ 0 ∧ x.significand = fractions + x.magnitude % fractions
      ∧ x.scale = (x.magnitude / fractions : Nat) - 1075)
  := by
  by_cases h : x.magnitude / fractions = 0
  · exact .inl ⟨h, if_pos h, if_pos h⟩
  · exact .inr ⟨h, if_neg h, if_neg h⟩

/-- The magnitude is put together from the scale and the significand. -/
theorem magnitude_eq (x : Binary64) :
  x.magnitude = (x.scale + 1074).toNat * fractions + x.significand
  := by
  have hcases := x.significand_scale_cases
  rw [fractions_eq] at *
  omega

/-- The significand and the scale of a number are canonical. -/
theorem canonical (x : Binary64) :
  Canonical x.significand x.scale
  := by
  have hcases := x.significand_scale_cases
  rw [fractions_eq] at hcases
  constructor <;> omega

/-- The significand and the scale of a number are the only canonical ones. -/
theorem eq_of_canonical {x : Binary64} {m : Nat} {s : Int} (h : Canonical m s)
    (hmagnitude : x.magnitude = (s + 1074).toNat * fractions + m) :
  x.significand = m ∧ x.scale = s
  := by
  obtain ⟨hlt, hscale, hnormal⟩ := h
  have hcases := x.significand_scale_cases
  rw [fractions_eq] at *
  omega

/-- A finite number is given by its sign and its magnitude. -/
theorem ofMagnitude_magnitude {x : Binary64} (h : x.isFinite) :
  ofMagnitude x.negative x.magnitude = x
  := by
  rw [ofMagnitude, dif_pos (of_decide_eq_true h)]

/-- A finite number is what its own value rounds to. -/
theorem ofRational_value {x : Binary64} (h : x.isFinite) :
  ofRational x.negative x.value = x
  := by
  by_cases hzero : x.significand = 0
  · have hmagnitude : x.magnitude = 0 := by
      have hcases := x.significand_scale_cases
      rw [fractions_eq] at hcases
      omega
    have hvalue : x.value = 0 := by rw [value, hzero, Nat.cast_zero, zero_mul]
    rw [ofRational, if_pos hvalue, ← ofMagnitude_magnitude h, hmagnitude]
    rfl
  · rw [value, ofRational_of_canonical x.canonical hzero, ← magnitude_eq, ofMagnitude_magnitude h]

/-! ### Large and small numbers -/

/-- Magnitudes past that of infinity are cut. -/
theorem magnitude_ofMagnitude (negative : Bool) (magnitude : Nat) :
  (ofMagnitude negative magnitude).magnitude = min magnitude infiniteMagnitude
  := by
  unfold ofMagnitude
  split
  · rename_i hlt
    rw [min_eq_left hlt.le]
  · rename_i hle
    rw [min_eq_right (Nat.le_of_not_lt hle)]
    rfl

/-- Rounding always gives a number. -/
theorem not_isNaN_ofRational (negative : Bool) (r : ℚ) :
  ¬ (ofRational negative r).isNaN
  := by
  by_cases hr : r = 0
  · rw [ofRational, if_pos hr]
    cases negative <;> decide
  · simp only [ofRational, if_neg hr, isNaN, magnitude_ofMagnitude, decide_eq_true_eq, not_lt]
    apply min_le_right

/-- Rounding does not lead below a power of two in the range of the exponent field. -/
theorem ofRational_of_le {r : ℚ} {k : Int} (h : 2 ^ k ≤ r) (hk : -1022 ≤ k) (negative : Bool) :
  ∃ magnitude, (k + 1023).toNat * fractions ≤ magnitude
    ∧ ofRational negative r = ofMagnitude negative magnitude
  := by
  have hpos : 0 < r := lt_of_lt_of_le (zpow_pos two_pos k) h
  have hlog : k ≤ Int.log 2 r :=
    (Int.zpow_le_iff_le_log Nat.one_lt_two hpos).mp (by exact_mod_cast h)
  have hle : (2 : ℚ) ^ Int.log 2 r ≤ r := by
    exact_mod_cast Int.zpow_log_le_self Nat.one_lt_two hpos
  have hmax : max (Int.log 2 r - 52) (-1074) = Int.log 2 r - 52 := max_eq_left (by omega)
  simp only [ofRational, if_neg hpos.ne', hmax]
  generalize Int.log 2 r = log at *
  have hnearest : 2 ^ 52 ≤ nearestEven (r / 2 ^ (log - 52)) := by
    apply le_nearestEven
    rw [le_div_iff₀ (zpow_pos two_pos _)]
    apply le_trans (le_of_eq _) hle
    rw [Nat.cast_pow, Nat.cast_ofNat, ← zpow_natCast, ← zpow_add₀ two_ne_zero]
    congr 1
    omega
  refine ⟨_, ?_, rfl⟩
  rw [fractions_eq]
  omega

/-- What is too large is rounded to infinity. -/
theorem ofRational_eq_infinity {r : ℚ} (h : 2 ^ (1024 : Int) ≤ r) (negative : Bool) :
  ofRational negative r = infinity negative
  := by
  obtain ⟨magnitude, hle, heq⟩ := ofRational_of_le h (by decide) negative
  have hinfinite : ¬ magnitude < infiniteMagnitude := Nat.not_lt_of_le hle
  rw [heq, ofMagnitude, dif_neg hinfinite]

/-- What is too small is rounded to zero. -/
theorem ofRational_eq_zero {r : ℚ} (hpos : 0 < r) (h : r < 2 ^ (-1075 : Int)) (negative : Bool) :
  ofRational negative r = zero negative
  := by
  have hlog : Int.log 2 r < -1075 :=
    (Int.lt_zpow_iff_log_lt Nat.one_lt_two hpos).mp (by exact_mod_cast h)
  have hmax : max (Int.log 2 r - 52) (-1074) = -1074 := max_eq_right (by omega)
  have hhalf : r / 2 ^ (-1074 : Int) < 1 / 2 := by
    have hpower : (2 : ℚ) ^ (-1075 : Int) = 1 / 2 * 2 ^ (-1074 : Int) := by
      rw [one_div, ← zpow_neg_one, ← zpow_add₀ two_ne_zero]
      rfl
    rwa [div_lt_iff₀ (zpow_pos two_pos _), ← hpower]
  simp only [ofRational, if_neg hpos.ne', hmax, nearestEven_eq_zero hhalf]
  rfl

/-! ### Integers -/

/-- The number for an integer is the rounded integer. -/
theorem ofInt_eq (n : Int) :
  ofInt n = ofRational (n < 0) n.natAbs
  := by
  rw [ofInt, ofRatio_eq _ _ Nat.one_pos, Nat.cast_one, div_one]

/-- A natural number may be taken for an integer. -/
theorem ofInt_natCast (n : Nat) :
  ofInt n = ofNat n
  := by
  rw [ofInt, ofNat, Int.natAbs_natCast, decide_eq_false (Int.not_lt.mpr (Int.natCast_nonneg n))]

/-- The number for a natural number is the rounded natural number. -/
theorem ofNat_eq (n : Nat) :
  ofNat n = ofRational false n
  := by
  rw [ofNat, ofRatio_eq false n Nat.one_pos, Nat.cast_one, div_one]

/-- The value of a number is that of the canonical parts that make up its magnitude. -/
theorem value_eq_of_canonical {x : Binary64} {m : Nat} {s : Int} (h : Canonical m s)
    (hmagnitude : x.magnitude = (s + 1074).toNat * fractions + m) :
  x.value = m * 2 ^ s
  := by
  obtain ⟨hsignificand, hscale⟩ := eq_of_canonical h hmagnitude
  rw [value, hsignificand, hscale]

/-- Canonical parts make up a finite number with their sign and their value. -/
theorem value_ofMagnitude {m : Nat} {s : Int} (h : Canonical m s) (negative : Bool)
    (hlt : (s + 1074).toNat * fractions + m < infiniteMagnitude) :
  (ofMagnitude negative ((s + 1074).toNat * fractions + m)).negative = negative
    ∧ (ofMagnitude negative ((s + 1074).toNat * fractions + m)).isFinite
    ∧ (ofMagnitude negative ((s + 1074).toNat * fractions + m)).value = m * 2 ^ s
  := by
  rw [ofMagnitude, dif_pos hlt]
  use rfl, decide_eq_true hlt
  apply value_eq_of_canonical h rfl

/-- Natural numbers of up to 53 bits are not changed by rounding. -/
theorem value_ofRational {n : Nat} (h : n < 2 ^ 53) (negative : Bool) :
  (ofRational negative n).negative = negative ∧ (ofRational negative n).isFinite
    ∧ (ofRational negative n).value = n
  := by
  by_cases hzero : n = 0
  · have hcanonical : Canonical 0 (-1074) := ⟨by decide, le_refl _, .inr rfl⟩
    have hvalue := value_ofMagnitude hcanonical negative (by decide)
    rw [Nat.cast_zero, zero_mul] at hvalue
    rw [hzero, Nat.cast_zero, ofRational, if_pos rfl]
    apply hvalue
  · -- The significand is the number itself, moved up until its first bit is the largest.
    have hlog : n.log2 ≤ 52 := Nat.lt_succ_iff.mp ((Nat.log2_lt hzero).mpr h)
    have hcanonical : Canonical (n * 2 ^ (52 - n.log2)) (n.log2 - 52) := by
      constructor
      · calc n * 2 ^ (52 - n.log2) < 2 ^ (n.log2 + 1) * 2 ^ (52 - n.log2) :=
              Nat.mul_lt_mul_of_pos_right Nat.lt_log2_self (Nat.two_pow_pos _)
          _ = 2 ^ 53 := by rw [← pow_add]; congr 1; omega
      · omega
      · left
        calc 2 ^ 52 = 2 ^ n.log2 * 2 ^ (52 - n.log2) := by rw [← pow_add]; congr 1; omega
          _ ≤ n * 2 ^ (52 - n.log2) := Nat.mul_le_mul_right _ (Nat.log2_self_le hzero)
    have hvalue : ((n * 2 ^ (52 - n.log2) : Nat) : ℚ) * 2 ^ (n.log2 - 52 : Int) = n := by
      have hexponent : (n.log2 - 52 : Int) = -((52 - n.log2 : Nat) : Int) := by omega
      rw [hexponent, zpow_neg, zpow_natCast]
      push_cast
      field_simp
    have hlt : ((n.log2 : Int) - 52 + 1074).toNat * fractions + n * 2 ^ (52 - n.log2)
        < infiniteMagnitude := by
      have hlt := hcanonical.lt
      have hinfinite : infiniteMagnitude = 2047 * 4503599627370496 := rfl
      rw [hinfinite, fractions_eq]
      omega
    have hpos : n * 2 ^ (52 - n.log2) ≠ 0 := Nat.mul_ne_zero hzero (Nat.two_pow_pos _).ne'
    rw [← hvalue, ofRational_of_canonical hcanonical hpos]
    apply value_ofMagnitude hcanonical negative hlt

/-- A finite number whose value is a natural number is an integer. -/
theorem integer?_eq {x : Binary64} (hfinite : x.isFinite) {n : Nat} (h : x.value = n) :
  x.integer? = some (if x.negative then -(n : Int) else n)
  := by
  have hproduct : x.significand * Nat.pow 2 x.scale.toNat = n * Nat.pow 2 (-x.scale).toNat := by
    rw [value, zpow_eq_div two_ne_zero, ← mul_div_assoc, div_eq_iff (by positivity)] at h
    exact_mod_cast h
  have hmod : x.significand % Nat.pow 2 (-x.scale).toNat = 0 := by
    rcases le_total 0 x.scale with hscale | hscale
    · have hexponent : (-x.scale).toNat = 0 := by omega
      rw [hexponent]
      apply Nat.mod_one
    · have hexponent : x.scale.toNat = 0 := by omega
      rw [hexponent, Nat.pow_eq, pow_zero, mul_one] at hproduct
      rw [hproduct, Nat.mul_mod_left]
  have hunit : 0 < Nat.pow 2 (-x.scale).toNat := Nat.pow_pos Nat.two_pos
  simp only [integer?, hfinite, if_true, hmod, hproduct, Nat.mul_div_cancel _ hunit]

/-- A small integer is exact. -/
theorem integer?_ofInt {n : Int} (h : n.natAbs < 2 ^ 53) :
  (ofInt n).integer? = some n
  := by
  obtain ⟨hnegative, hfinite, hvalue⟩ := value_ofRational h (n < 0)
  rw [ofInt_eq, integer?_eq hfinite hvalue, hnegative]
  simp only [decide_eq_true_eq, Option.some.injEq]
  split <;> omega

/-- A small natural number is exact. -/
theorem integer?_ofNat {n : Nat} (h : n < 2 ^ 53) :
  (ofNat n).integer? = some (n : Int)
  := by
  rw [← ofInt_natCast, integer?_ofInt]
  rwa [Int.natAbs_natCast]

/-- An integer is a number. -/
theorem not_isNaN_ofInt (n : Int) :
  ¬ (ofInt n).isNaN
  := by
  rw [ofInt_eq]
  apply not_isNaN_ofRational

/-- A natural number is a number. -/
theorem not_isNaN_ofNat (n : Nat) :
  ¬ (ofNat n).isNaN
  := by
  rw [← ofInt_natCast]
  apply not_isNaN_ofInt

/-- Natural numbers of more than 53 bits are rounded to integers of more than 53 bits. -/
theorem le_magnitude_ofNat {n : Nat} (h : 2 ^ 53 ≤ n) :
  1076 * fractions ≤ (ofNat n).magnitude
  := by
  have hcast : (2 : ℚ) ^ (53 : Int) ≤ n := by exact_mod_cast h
  obtain ⟨magnitude, hle, heq⟩ := ofRational_of_le hcast (by decide) false
  have hinfinite : 1076 * fractions ≤ infiniteMagnitude := by decide
  rw [ofNat_eq, heq, magnitude_ofMagnitude]
  apply le_min hle hinfinite

/-- A number of large magnitude is no small integer. -/
theorem le_natAbs_of_integer? {x : Binary64} (h : 1076 * fractions ≤ x.magnitude) {k : Int}
    (hk : x.integer? = some k) :
  2 ^ 52 ≤ k.natAbs
  := by
  have hcases := x.significand_scale_cases
  rw [fractions_eq] at *
  have hexponent : (-x.scale).toNat = 0 := by omega
  have hsignificand : 2 ^ 52 ≤ x.significand := by omega
  simp only [integer?, hexponent, Nat.pow_eq, pow_zero, Nat.mod_one, if_true, Nat.div_one] at hk
  split at hk
  · have hle := Nat.mul_le_mul hsignificand (Nat.one_le_two_pow (n := x.scale.toNat))
    cases hk
    split <;> omega
  · cases hk

end Binary64

end StackCompiler
