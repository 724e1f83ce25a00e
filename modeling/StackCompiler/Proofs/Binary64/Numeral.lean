import Mathlib.Data.List.TakeWhile
import StackCompiler.Binary64.Decimal
import StackCompiler.Proofs.Binary64.Rounding
import StackCompiler.Text.Span

/-!
# Numerals of binary64 numbers

The text of a number is read back as the same number, whatever follows it, as long as what follows
cannot go on with the numeral.  Only the values that are not numbers lose their bits.
-/

namespace StackCompiler

namespace Binary64

/-! ### Decimal numbers -/

/-- Ten is more than two cubed. -/
theorem zpow_two_le_zpow_ten {e : Int} (h : 0 ≤ e) :
  (2 : ℚ) ^ (3 * e) ≤ 10 ^ e
  := by
  rw [zpow_mul]
  apply zpow_le_zpow_left₀ h (by positivity)
  norm_num

/-- The number that is read from a decimal depends only on its value. -/
theorem ofDecimal_eq (negative : Bool) (digits : Nat) (exponent : Int) :
  ofDecimal negative digits exponent = ofRational negative (digits * 10 ^ exponent)
  := by
  unfold ofDecimal
  by_cases hzero : digits = 0
  · rw [if_pos hzero, hzero, Nat.cast_zero, zero_mul, ofRational, if_pos rfl]
  have hdigits : (1 : ℚ) ≤ digits := by exact_mod_cast Nat.one_le_iff_ne_zero.mpr hzero
  have hten : (0 : ℚ) < 10 ^ exponent := zpow_pos (by norm_num) exponent
  have htwo : (0 : ℚ) < 2 ^ (3 * exponent) := zpow_pos two_pos _
  rw [if_neg hzero]
  split
  · rename_i hlarge
    -- A power of ten is larger than that of eight, which is already past every finite number.
    rw [ofRational_eq_infinity]
    calc (2 : ℚ) ^ (1024 : Int) ≤ 2 ^ (3 * exponent) :=
          zpow_le_zpow_right₀ one_le_two (by omega)
      _ ≤ 10 ^ exponent := zpow_two_le_zpow_ten (by omega)
      _ ≤ digits * 10 ^ exponent := le_mul_of_one_le_left hten.le hdigits
  split
  · rename_i hsmall
    have hle : (10 : ℚ) ^ exponent ≤ 2 ^ (3 * exponent) := by
      have h := @zpow_two_le_zpow_ten (-exponent) (by omega)
      rw [mul_neg, zpow_neg, zpow_neg] at h
      apply (inv_le_inv₀ htwo hten).mp h
    rw [ofRational_eq_zero (mul_pos (one_pos.trans_le hdigits) hten)]
    calc (digits : ℚ) * 10 ^ exponent
        < 2 ^ (digits.log2 + 1 : Int) * 2 ^ (3 * exponent) := by
          apply mul_lt_mul (lt_zpow_log2_add_one digits) hle hten (zpow_pos two_pos _).le
      _ = 2 ^ (digits.log2 + 1 + 3 * exponent : Int) := (zpow_add₀ two_ne_zero _ _).symm
      _ ≤ 2 ^ (-1075 : Int) := zpow_le_zpow_right₀ one_le_two (by omega)
  · have hden : 0 < Nat.pow 10 (-exponent).toNat := Nat.pow_pos (by decide)
    rw [ofRatio_eq _ _ hden, zpow_eq_div (by norm_num) exponent]
    congr 1
    push_cast [Nat.pow_eq]
    rw [mul_div_assoc]

/-! ### The shortest decimal -/

/-- A number has the sign that it is made with. -/
theorem negative_ofMagnitude (negative : Bool) (magnitude : Nat) :
  (ofMagnitude negative magnitude).negative = negative
  := by
  unfold ofMagnitude
  split <;> rfl

/-- Rounding keeps the sign. -/
theorem negative_ofRational (negative : Bool) (r : ℚ) :
  (ofRational negative r).negative = negative
  := by
  by_cases hr : r = 0
  · rw [ofRational, if_pos hr]
    rfl
  · simp only [ofRational, if_neg hr, negative_ofMagnitude]

/-- Rounding does not look at the sign. -/
theorem magnitude_ofRational (negative negative' : Bool) (r : ℚ) :
  (ofRational negative r).magnitude = (ofRational negative' r).magnitude
  := by
  by_cases hr : r = 0
  · rw [ofRational, if_pos hr, ofRational, if_pos hr]
    rfl
  · simp only [ofRational, if_neg hr, magnitude_ofMagnitude]

/-- A number is given by its sign and its magnitude. -/
theorem eq_of_magnitude_eq {x y : Binary64} (hnegative : x.negative = y.negative)
    (hmagnitude : x.magnitude = y.magnitude) :
  x = y
  := by
  cases x
  cases y
  cases hnegative
  cases hmagnitude
  rfl

/-- What a number is rounded to apart from its sign does not depend on the sign. -/
theorem ofRational_eq_of_magnitude {x : Binary64} {r : ℚ}
    (h : (ofRational false r).magnitude = x.magnitude) :
  ofRational x.negative r = x
  := by
  apply eq_of_magnitude_eq (negative_ofRational _ _)
  rw [← h]
  apply magnitude_ofRational

/-- The exact decimal has the value of the number. -/
theorem exactDecimal_eq (x : Binary64) :
  (x.exactDecimal.digits * 10 ^ x.exactDecimal.exponent : ℚ) = x.value
  := by
  unfold exactDecimal value
  split
  · rename_i hscale
    obtain ⟨k, hk⟩ := Int.eq_ofNat_of_zero_le hscale
    simp [hk]
  · rename_i hscale
    obtain ⟨k, hk⟩ := Int.exists_eq_neg_ofNat (le_of_not_ge hscale)
    have hten : (10 : ℚ) = 5 * 2 := by norm_num
    simp only [hk, neg_neg, Int.toNat_natCast, zpow_neg, zpow_natCast, hten, mul_pow]
    push_cast [Nat.pow_eq]
    field_simp

/-- A finite number is read back from its exact decimal. -/
theorem readsBack_exactDecimal {x : Binary64} (h : x.isFinite) :
  x.readsBack x.exactDecimal
  := by
  rw [readsBack, ofDecimal_eq, exactDecimal_eq, beq_iff_eq,
    magnitude_ofRational false x.negative, ofRational_value h]

/-- A neighbour on a grid is taken only if the number is read back from it. -/
theorem readsBack_of_gridNeighbour? {x : Binary64} {exponent : Int} {d : Decimal}
    (h : x.gridNeighbour? exponent = some d) :
  x.readsBack d
  := by
  unfold gridNeighbour? at h
  dsimp only at h
  split at h
  · rename_i hbelow habove
    cases h
    split
    · apply hbelow
    · apply habove
  · rename_i hbelow habove
    cases h
    apply hbelow
  · rename_i hbelow habove
    cases h
    apply habove
  · cases h

/-- A finite number is read back from the shortest decimal. -/
theorem readsBack_coarsest {x : Binary64} (h : x.isFinite) (grids : Nat) (exponent : Int) :
  x.readsBack (x.coarsest grids exponent)
  := by
  induction grids generalizing exponent with
  | zero => apply readsBack_exactDecimal h
  | succ grids ih =>
    rw [coarsest]
    split
    · rename_i hneighbour
      apply readsBack_of_gridNeighbour? hneighbour
    · apply ih

/-- The shortest decimal of a finite number is rounded to that number. -/
theorem ofDecimal_shortest {x : Binary64} (h : x.isFinite) :
  ofDecimal x.negative x.shortest.digits x.shortest.exponent = x
  := by
  have hreads : x.readsBack x.shortest := readsBack_coarsest h _ _
  rw [readsBack, ofDecimal_eq, beq_iff_eq] at hreads
  rw [ofDecimal_eq, ofRational_eq_of_magnitude hreads]

end Binary64

/-! ### Digits of a decimal -/

namespace Decimal

/-- The digits of a fraction with the point in front of them; no digits have no point. -/
def pointed (fraction : List Char) : List Char :=
  if fraction.isEmpty then [] else '.' :: fraction

/-- A fraction consists of the digits that are kept and of zeros. -/
theorem eq_append_replicate (fraction : List Char) :
  ∃ zeros, fraction
    = (fraction.reverse.dropWhile (· == '0')).reverse ++ List.replicate zeros '0'
  := by
  use (fraction.reverse.takeWhile (· == '0')).length
  have hzeros : fraction.reverse.takeWhile (· == '0')
      = List.replicate (fraction.reverse.takeWhile (· == '0')).length '0' := by
    apply List.eq_replicate_of_mem
    intro c hc
    have hzero := List.mem_takeWhile_imp hc
    apply eq_of_beq hzero
  rw [← List.reverse_replicate, ← hzeros, ← List.reverse_append, List.takeWhile_append_dropWhile,
    List.reverse_reverse]

/-- A number that fits is padded to the given places. -/
theorem length_leftpad_toDigits {n places : Nat} (hplaces : 0 < places) (h : n < 10 ^ places) :
  ((Nat.toDigits 10 n).leftpad places '0').length = places
  := by
  rw [List.length_leftpad, Nat.max_eq_left]
  apply (Nat.length_toDigits_le_iff (by decide) hplaces).mpr h

/-- Padding does not change the number. -/
theorem ofDigitChars_leftpad_toDigits (n places : Nat) :
  Nat.ofDigitChars 10 ((Nat.toDigits 10 n).leftpad places '0') 0 = n
  := by
  rw [List.leftpad, Nat.ofDigitChars_append, Nat.ofDigitChars_replicate_zero, Nat.mul_zero,
    Nat.ofDigitChars_ten_toDigits]

/-- Padding is made of digits. -/
theorem isDigit_of_mem_leftpad_toDigits {n places : Nat} {c : Char}
    (h : c ∈ (Nat.toDigits 10 n).leftpad places '0') :
  c.isDigit
  := by
  rcases List.mem_append.mp h with h | h
  · rw [List.eq_of_mem_replicate h]
    decide
  · apply Nat.isDigit_of_mem_toDigits (by decide) (by decide) h

/-- The digits before the point and those of the fraction that are kept have the value of all
digits. -/
theorem value_eq {digits zeros : Nat} {whole kept : List Char}
    (hwhole : Nat.ofDigitChars 10 whole 0 = digits / 10 ^ (kept.length + zeros))
    (hkept : Nat.ofDigitChars 10 (kept ++ List.replicate zeros '0') 0
      = digits % 10 ^ (kept.length + zeros)) :
  (Nat.ofDigitChars 10 (whole ++ kept) 0 * 10 ^ (-(kept.length : Int)) : ℚ)
    = digits * 10 ^ (-((kept.length + zeros : Nat) : Int))
  := by
  rw [Nat.ofDigitChars_append, Nat.ofDigitChars_replicate_zero] at hkept
  have hsplit := Nat.div_add_mod digits (10 ^ (kept.length + zeros))
  rw [← hwhole, ← hkept] at hsplit
  rw [Nat.ofDigitChars_append, Nat.ofDigitChars_eq_ofDigitChars_zero, ← hsplit, zpow_neg, zpow_neg,
    zpow_natCast, zpow_natCast, pow_add]
  push_cast
  field_simp
  ring

/-- The numeral of a decimal consists of digits, at least one of them before the point, and these
digits have the value of the decimal. -/
theorem numeral_eq (d : Decimal) :
  ∃ whole fraction, d.numeral = whole ++ pointed fraction
    ∧ whole ≠ [] ∧ (∀ c ∈ whole, c.isDigit) ∧ (∀ c ∈ fraction, c.isDigit)
    ∧ (Nat.ofDigitChars 10 (whole ++ fraction) 0 * 10 ^ (-(fraction.length : Int)) : ℚ)
      = d.digits * 10 ^ d.exponent
  := by
  unfold numeral
  split
  · rename_i hexponent
    obtain ⟨k, hk⟩ := Int.eq_ofNat_of_zero_le hexponent
    use Nat.toDigits 10 (d.digits * Nat.pow 10 d.exponent.toNat), []
    use (List.append_nil _).symm, Nat.toDigits_ne_nil
    use fun c => Nat.isDigit_of_mem_toDigits (by decide) (by decide), by nofun
    simp [hk, Nat.ofDigitChars_ten_toDigits]
  · rename_i hexponent
    obtain ⟨places, hplaces⟩ := Int.exists_eq_neg_ofNat (le_of_not_ge hexponent)
    simp only [hplaces, neg_neg, Int.toNat_natCast]
    have hpositive : 0 < places := by omega
    have hlt : d.digits % Nat.pow 10 places < 10 ^ places :=
      Nat.mod_lt _ (Nat.pow_pos (by decide))
    have hvalue := ofDigitChars_leftpad_toDigits (d.digits % Nat.pow 10 places) places
    have hlength := length_leftpad_toDigits hpositive hlt
    have hdigits := @isDigit_of_mem_leftpad_toDigits (d.digits % Nat.pow 10 places) places
    generalize (Nat.toDigits 10 (d.digits % Nat.pow 10 places)).leftpad places '0' = fraction at *
    -- Zeros at the end of the fraction are not written, and the value does not need them.
    obtain ⟨zeros, hzeros⟩ := eq_append_replicate fraction
    generalize (fraction.reverse.dropWhile (· == '0')).reverse = kept at *
    subst hzeros
    rw [List.length_append, List.length_replicate] at hlength
    subst hlength
    use Nat.toDigits 10 (d.digits / Nat.pow 10 (kept.length + zeros)), kept, rfl,
      Nat.toDigits_ne_nil
    use fun c => Nat.isDigit_of_mem_toDigits (by decide) (by decide)
    use fun c hc => hdigits (List.mem_append_left _ hc)
    apply value_eq Nat.ofDigitChars_ten_toDigits hvalue

end Decimal

/-! ### Reading a numeral -/

/-- Characters of a class are taken up to the first that is not of the class. -/
theorem Text.takeWhile_append_of_head? {p : Char → Bool} {taken text : List Char}
    (htaken : ∀ c ∈ taken, p c) (htext : ∀ c ∈ text.head?, ¬ p c) :
  (taken ++ text).takeWhile p = taken
  := by
  rw [List.takeWhile_append_of_pos htaken]
  cases text with
  | nil => apply List.append_nil
  | cons c text =>
    rw [List.takeWhile_cons_of_neg (htext c rfl), List.append_nil]

namespace Binary64

/-- The text does not go on with a numeral in front of it. -/
def EndsNumeral (text : List Char) : Prop :=
  ∀ c ∈ text.head?, ¬ c.isDigit ∧ c ≠ '.' ∧ c ≠ 'e' ∧ c ≠ 'E'

/-- Where a numeral ends, no exponent follows. -/
theorem exponent_of_endsNumeral {text : List Char} (h : EndsNumeral text) :
  exponent text = (0, 0)
  := by
  cases text with
  | nil => rfl
  | cons c text =>
    obtain ⟨-, -, he, hE⟩ := h c rfl
    simp [exponent, he, hE]

/-- Where a numeral ends, no fraction follows. -/
theorem fractionDigits_of_endsNumeral {text : List Char} (h : EndsNumeral text) :
  fractionDigits text = []
  := by
  cases text with
  | nil => rfl
  | cons c text =>
    obtain ⟨-, hpoint, -, -⟩ := h c rfl
    simp [fractionDigits, hpoint]

/-- Digits at the front of a text are read together with the fraction after them, if no exponent
follows. -/
theorem scanUnsigned_append (negative : Bool) {whole fraction text : List Char} {places : Nat}
    (hne : whole ≠ []) (hwhole : ∀ c ∈ whole, c.isDigit) (htext : ∀ c ∈ text.head?, ¬ c.isDigit)
    (hfraction : fractionDigits text = fraction)
    (hplaces : (if fraction.isEmpty then 0 else 1 + fraction.length) = places)
    (hexponent : exponent (text.drop places) = (0, 0)) :
  scanUnsigned negative (whole ++ text)
    = some (ofDigits negative whole fraction 0, whole.length + places)
  := by
  have htake := Text.takeWhile_append_of_head? hwhole htext
  have hdrop := @List.drop_left _ whole text
  obtain ⟨c, others, rfl⟩ := List.exists_cons_of_ne_nil hne
  have hc := hwhole c List.mem_cons_self
  unfold scanUnsigned
  split
  · rename_i heq
    obtain ⟨rfl, -⟩ := List.cons.inj heq
    cases hc
  · rename_i heq
    obtain ⟨rfl, -⟩ := List.cons.inj heq
    cases hc
  · rw [htake]
    simp only [hdrop, hfraction, hplaces, hexponent, Nat.add_zero]

/-- Digits with the digits of a fraction after a point are read as a whole. -/
theorem scanUnsigned_digits (negative : Bool) {whole fraction text : List Char} (hne : whole ≠ [])
    (hwhole : ∀ c ∈ whole, c.isDigit) (hfraction : ∀ c ∈ fraction, c.isDigit)
    (htext : EndsNumeral text) :
  scanUnsigned negative (whole ++ (Decimal.pointed fraction ++ text))
    = some (ofDigits negative whole fraction 0,
        whole.length + (Decimal.pointed fraction).length)
  := by
  have hdigit : ∀ c ∈ text.head?, ¬ c.isDigit := fun c hc => (htext c hc).1
  have hexponent := exponent_of_endsNumeral htext
  cases fraction with
  | nil =>
    apply scanUnsigned_append negative hne hwhole hdigit (fractionDigits_of_endsNumeral htext) rfl
    apply hexponent
  | cons f fs =>
    apply scanUnsigned_append negative hne hwhole
    · intro c hc
      cases hc
      decide
    · apply Text.takeWhile_append_of_head? hfraction hdigit
    · apply Nat.add_comm
    · rw [← hexponent]
      apply congrArg exponent
      apply List.drop_left

/-- The numeral of a decimal is read as the number nearest to the decimal. -/
theorem scanUnsigned_numeral (negative : Bool) (d : Decimal) {text : List Char}
    (htext : EndsNumeral text) :
  scanUnsigned negative (d.numeral ++ text)
    = some (ofDecimal negative d.digits d.exponent, d.numeral.length)
  := by
  obtain ⟨whole, fraction, heq, hne, hwhole, hfraction, hvalue⟩ := d.numeral_eq
  rw [heq, List.append_assoc, scanUnsigned_digits negative hne hwhole hfraction htext,
    List.length_append, ofDigits, ofDecimal_eq, ofDecimal_eq, zero_sub, hvalue]

/-! ### Reading the text of a number -/

theorem not_isNaN_of_isFinite {x : Binary64} (h : x.isFinite) :
  ¬ x.isNaN
  := by
  simp only [isFinite, decide_eq_true_eq] at h
  simp only [isNaN, decide_eq_true_eq]
  omega

/-- The text of a number without its sign. -/
def unsignedText (x : Binary64) : List Char :=
  if x.isFinite then if x.magnitude = 0 then ['0'] else x.shortest.numeral else ['i', 'n', 'f']

/-- What the text of a number is read as: the value that is not a number loses its bits. -/
def reread (x : Binary64) : Binary64 :=
  if x.isNaN then nan false else x

theorem toList_text (x : Binary64) :
  x.text.toList = if x.isNaN then ['N', 'a', 'N']
    else (if x.negative then ['-'] else []) ++ x.unsignedText
  := by
  unfold text unsignedText
  split
  · rfl
  · by_cases hnegative : x.negative <;> by_cases hfinite : x.isFinite <;> simp [hnegative, hfinite]

/-- The text of a finite number without its sign is the numeral of a decimal that is rounded to the
number. -/
theorem exists_numeral_eq {x : Binary64} (h : x.isFinite) :
  ∃ d : Decimal, x.unsignedText = d.numeral ∧ ofDecimal x.negative d.digits d.exponent = x
  := by
  rw [unsignedText, if_pos h]
  split
  · rename_i hzero
    have hx : zero x.negative = x := eq_of_magnitude_eq rfl hzero.symm
    exact ⟨⟨0, 0⟩, rfl, by rw [ofDecimal, if_pos rfl, hx]⟩
  · exact ⟨x.shortest, rfl, ofDecimal_shortest h⟩

/-- The text of a number without its sign is read back up to its end. -/
theorem scanUnsigned_unsignedText {x : Binary64} (hnan : ¬ x.isNaN) {text : List Char}
    (htext : EndsNumeral text) :
  scanUnsigned x.negative (x.unsignedText ++ text) = some (x, x.unsignedText.length)
  := by
  by_cases hfinite : x.isFinite
  · obtain ⟨d, hnumeral, hvalue⟩ := exists_numeral_eq hfinite
    rw [hnumeral, scanUnsigned_numeral x.negative d htext, hvalue]
  · have hmagnitude : x.magnitude = infiniteMagnitude := by
      simp only [isNaN, isFinite, decide_eq_true_eq] at hnan hfinite
      omega
    have hx : infinity x.negative = x := eq_of_magnitude_eq rfl hmagnitude.symm
    rw [unsignedText, if_neg hfinite]
    nth_rewrite 2 [← hx]
    rfl

/-- A text without a sign is read without one. -/
theorem scan_of_scanUnsigned {text : List Char} {result : Binary64 × Nat}
    (h : scanUnsigned false text = some result) :
  scan text = some result
  := by
  unfold scan
  split
  · cases h
  · apply h

/-- The text of a number is read back. -/
theorem scan_text (x : Binary64) {text : List Char} (htext : EndsNumeral text) :
  scan (x.text.toList ++ text) = some (x.reread, x.text.toList.length)
  := by
  rw [toList_text, reread]
  split
  · rfl
  · rename_i hnan
    have hscan := scanUnsigned_unsignedText hnan htext
    split
    · rename_i hnegative
      rw [hnegative] at hscan
      rw [List.append_assoc, List.singleton_append, scan, hscan, Option.map_some,
        List.length_append, List.length_singleton]
    · rename_i hpositive
      rw [Bool.not_eq_true] at hpositive
      rw [hpositive] at hscan
      apply scan_of_scanUnsigned hscan

/-- The text of a number is not empty. -/
theorem toList_text_ne_nil (x : Binary64) :
  x.text.toList ≠ []
  := by
  intro hnil
  have hscan := @scan_text x [] (by nofun)
  rw [hnil] at hscan
  cases hscan

/-- A number is read back with all its bits. -/
theorem reread_of_not_isNaN {x : Binary64} (h : ¬ x.isNaN) :
  x.reread = x
  := if_neg h

/-- What is read back has the same text. -/
theorem text_reread (x : Binary64) :
  x.reread.text = x.text
  := by
  unfold reread
  split
  · rename_i hnan
    have hnan' : (nan false).isNaN := by decide
    rw [text, if_pos hnan', text, if_pos hnan]
  · rfl

/-- The text of a number as a whole is read back. -/
theorem ofText?_text (x : Binary64) :
  ofText? x.text = some x.reread
  := by
  have hscan := @scan_text x [] (by nofun)
  rw [List.append_nil, String.length_toList] at hscan
  rw [ofText?, hscan]
  apply if_pos rfl

/-- A numeral is made of digits and a point. -/
theorem mem_numeral {d : Decimal} {c : Char} (h : c ∈ d.numeral) :
  c.isDigit ∨ c = '.'
  := by
  obtain ⟨whole, fraction, heq, -, hwhole, hfraction, -⟩ := d.numeral_eq
  rw [heq] at h
  rcases List.mem_append.mp h with h | h
  · exact .inl (hwhole c h)
  · unfold Decimal.pointed at h
    split at h
    · cases h
    · rcases List.mem_cons.mp h with rfl | h
      · exact .inr rfl
      · exact .inl (hfraction c h)

/-- The characters that the text of a number may have besides digits. -/
def otherCharacters : List Char :=
  ['-', '.', 'i', 'n', 'f', 'N', 'a']

/-- The text of a number is made of digits and a few other characters. -/
theorem mem_text {x : Binary64} {c : Char} (h : c ∈ x.text.toList) :
  c.isDigit ∨ c ∈ otherCharacters
  := by
  have hnan : ['N', 'a', 'N'] ⊆ otherCharacters := by decide
  have hinfinite : ['i', 'n', 'f'] ⊆ otherCharacters := by decide
  rw [toList_text] at h
  split at h
  · exact .inr (hnan h)
  · rcases List.mem_append.mp h with h | h
    · split at h
      · rw [List.mem_singleton.mp h]
        decide
      · cases h
    · unfold unsignedText at h
      split at h
      · split at h
        · rw [List.mem_singleton.mp h]
          decide
        · rcases mem_numeral h with h | rfl
          · exact .inl h
          · decide
      · exact .inr (hinfinite h)

/-- No other character is in the text of a number. -/
theorem not_mem_text (x : Binary64) {c : Char} (hdigit : c.isDigit = false)
    (hother : c ∉ otherCharacters) :
  c ∉ x.text.toList
  := by
  intro h
  rcases mem_text h with h | h
  · cases hdigit.symm.trans h
  · apply hother h

end Binary64

theorem Text.isBlank_of_isDigit {c : Char} (h : c.isDigit) :
  isBlank c = false
  := by
  apply Bool.eq_false_iff.mpr
  intro hblank
  simp only [isBlank, Bool.or_eq_true, beq_iff_eq] at hblank
  rcases hblank with (((rfl | rfl) | rfl) | rfl) | rfl <;> cases h

/-- No blank is in the text of a number. -/
theorem Binary64.isBlank_of_mem_text {x : Binary64} {c : Char} (h : c ∈ x.text.toList) :
  Text.isBlank c = false
  := by
  have hothers : otherCharacters.any Text.isBlank = false := rfl
  rcases mem_text h with h | h
  · apply Text.isBlank_of_isDigit h
  · apply Bool.eq_false_iff.mpr (List.any_eq_false.mp hothers c h)

end StackCompiler
