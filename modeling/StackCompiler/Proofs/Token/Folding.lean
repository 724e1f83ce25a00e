import Mathlib.Data.List.DropRight
import StackCompiler.Proofs.Binary64.Numeral

/-!
# Folded texts

A folded text has all letters in lower case, and a single space for any blanks in a row.  What a
keyword, a number and a name take at the front of a text can be seen after folding, and folding what
comes after them gives what comes after them in the folded text.
-/

namespace StackCompiler.Text

/-! ### Case -/

theorem isUpper_iff {c : Char} :
  c.isUpper ↔ 65 ≤ c.toNat ∧ c.toNat ≤ 90
  := by
  change decide ('A'.val ≤ c.val ∧ c.val ≤ 'Z'.val) = true ↔ _
  simp only [decide_eq_true_eq, UInt32.le_iff_toNat_le]
  rfl

theorem isLower_iff {c : Char} :
  c.isLower ↔ 97 ≤ c.toNat ∧ c.toNat ≤ 122
  := by
  change (decide ('a'.val ≤ c.val) && decide (c.val ≤ 'z'.val)) = true ↔ _
  simp only [Bool.and_eq_true, decide_eq_true_eq, UInt32.le_iff_toNat_le]
  rfl

theorem isAlpha_iff {c : Char} :
  c.isAlpha ↔ c.isUpper ∨ c.isLower
  := Bool.or_eq_true_iff

/-- Only capital letters change, and they become small letters. -/
theorem toLower_cases (c : Char) :
  c.toLower = c ∨ c.isUpper ∧ c.toLower.isLower
  := by
  unfold Char.toLower
  split
  · rename_i hupper
    have hrange := isUpper_iff.mp (decide_eq_true hupper)
    have hshift : ('a'.val - 'A'.val).toNat = 32 := rfl
    refine .inr ⟨decide_eq_true hupper, isLower_iff.mpr ?_⟩
    change 97 ≤ (c.val + ('a'.val - 'A'.val)).toNat ∧ (c.val + ('a'.val - 'A'.val)).toNat ≤ 122
    rw [UInt32.toNat_add, hshift, Char.toNat_val]
    omega
  · exact .inl rfl

/-- No letter is a digit. -/
theorem isDigit_of_isAlpha {c : Char} (h : c.isAlpha) :
  c.isDigit = false
  := by
  rw [isAlpha_iff, isUpper_iff, isLower_iff] at h
  apply Bool.eq_false_iff.mpr
  rw [Ne, Char.isDigit_iff_toNat]
  have hzero : '0'.toNat = 48 := rfl
  have hnine : '9'.toNat = 57 := rfl
  omega

/-- No digit is a letter. -/
theorem isAlpha_of_isDigit {c : Char} (h : c.isDigit) :
  c.isAlpha = false
  := by
  by_contra halpha
  rw [Bool.not_eq_false] at halpha
  cases h.symm.trans (isDigit_of_isAlpha halpha)

/-- No letter is a blank. -/
theorem isBlank_of_isAlpha {c : Char} (h : c.isAlpha) :
  isBlank c = false
  := by
  by_contra hblank
  simp only [isBlank, Bool.not_eq_false, Bool.or_eq_true, beq_iff_eq] at hblank
  rcases hblank with (((rfl | rfl) | rfl) | rfl) | rfl <;> cases h

/-- Neither a letter nor a digit is a blank. -/
theorem isBlank_of_isAlphanum {c : Char} (h : c.isAlphanum) :
  isBlank c = false
  := by
  rcases Bool.or_eq_true_iff.mp h with halpha | hdigit
  · apply isBlank_of_isAlpha halpha
  · apply isBlank_of_isDigit hdigit

/-- A class of characters does not depend on case. -/
def IgnoresCase (p : Char → Bool) : Prop :=
  ∀ c, p c.toLower = p c

/-- A class that has all letters or none of them ignores case. -/
theorem ignoresCase_of_isAlpha {p : Char → Bool} {b : Bool} (h : ∀ c, c.isAlpha → p c = b) :
  IgnoresCase p
  := by
  intro c
  rcases toLower_cases c with heq | ⟨hupper, hlower⟩
  · rw [heq]
  · rw [h c (isAlpha_iff.mpr (.inl hupper)), h c.toLower (isAlpha_iff.mpr (.inr hlower))]

theorem ignoresCase_isBlank :
  IgnoresCase isBlank
  := ignoresCase_of_isAlpha fun _ => isBlank_of_isAlpha

theorem ignoresCase_isDigit :
  IgnoresCase Char.isDigit
  := ignoresCase_of_isAlpha fun _ => isDigit_of_isAlpha

theorem ignoresCase_isAlpha :
  IgnoresCase Char.isAlpha
  := ignoresCase_of_isAlpha fun _ h => h

theorem ignoresCase_isAlphanum :
  IgnoresCase Char.isAlphanum
  := ignoresCase_of_isAlpha fun c h => by rw [Char.isAlphanum, h, Bool.true_or]

/-- Only letters have a case. -/
theorem toLower_of_not_isAlpha {c : Char} (h : c.isAlpha = false) :
  c.toLower = c
  := by
  apply (toLower_cases c).resolve_right
  rintro ⟨hupper, -⟩
  cases h.symm.trans (isAlpha_iff.mpr (.inl hupper))

/-- A character that is no letter is not changed by case. -/
theorem eq_of_toLower_eq {c d : Char} (hd : d.isAlpha = false) (h : c.toLower = d.toLower) :
  c = d
  := by
  have hc : c.isAlpha = false := by rw [← ignoresCase_isAlpha, h, ignoresCase_isAlpha, hd]
  rwa [toLower_of_not_isAlpha hc, toLower_of_not_isAlpha hd] at h

/-- A word without letters is not changed by case. -/
theorem eq_of_map_toLower_eq {text word : List Char} (hword : ∀ c ∈ word, c.isAlpha = false)
    (h : text.map Char.toLower = word.map Char.toLower) :
  text = word
  := by
  induction word generalizing text with
  | nil => apply List.map_eq_nil_iff.mp h
  | cons d word ih =>
    obtain ⟨hd, hword⟩ := List.forall_mem_cons.mp hword
    obtain ⟨c, others, rfl, hlower, hothers⟩ := List.map_eq_cons_iff.mp h
    rw [eq_of_toLower_eq hd hlower, ih hword hothers]

/-! ### Folding -/

/-- A text with all letters in lower case, and with a single space for any blanks in a row. -/
def fold : List Char → List Char
  | [] => []
  | c :: text =>
    if isBlank c then ' ' :: (fold text).dropWhile isBlank else c.toLower :: fold text

/-- Blanks are folded to one. -/
theorem fold_of_isBlank {c : Char} (h : isBlank c) (text : List Char) :
  fold (c :: text) = ' ' :: (fold text).dropWhile isBlank
  := by
  rw [fold, if_pos h]

/-- Any other character is folded to its lower case. -/
theorem fold_of_not_isBlank {c : Char} (h : isBlank c = false) (text : List Char) :
  fold (c :: text) = c.toLower :: fold text
  := by
  rw [fold, if_neg (by rw [h]; decide)]

/-- Blanks at the front may be dropped before or after folding. -/
theorem dropWhile_isBlank_fold (text : List Char) :
  (fold text).dropWhile isBlank = fold (text.dropWhile isBlank)
  := by
  induction text with
  | nil => rfl
  | cons c text ih =>
    by_cases hc : isBlank c
    · rw [fold_of_isBlank hc, List.dropWhile_cons_of_pos rfl, List.dropWhile_cons_of_pos hc,
        List.dropWhile_idempotent, ih]
    · have hlower : ¬ isBlank c.toLower := by rwa [ignoresCase_isBlank c]
      rw [List.dropWhile_cons_of_neg hc, fold_of_not_isBlank (Bool.eq_false_iff.mpr hc),
        List.dropWhile_cons_of_neg hlower]

/-- Blanks in a row are folded to one space. -/
theorem fold_blanks_append {blanks : List Char} (hne : blanks ≠ []) (h : ∀ c ∈ blanks, isBlank c)
    (text : List Char) :
  fold (blanks ++ text) = ' ' :: (fold text).dropWhile isBlank
  := by
  induction blanks with
  | nil => cases hne rfl
  | cons c blanks ih =>
    obtain ⟨hc, hblanks⟩ := List.forall_mem_cons.mp h
    rw [List.cons_append, fold_of_isBlank hc]
    cases blanks with
    | nil => rfl
    | cons d blanks =>
      rw [ih (List.cons_ne_nil d blanks) hblanks, List.dropWhile_cons_of_pos rfl,
        List.dropWhile_idempotent]

/-- A word without blanks is folded on its own. -/
theorem fold_append_of_not_isBlank {word : List Char} (h : ∀ c ∈ word, isBlank c = false)
    (text : List Char) :
  fold (word ++ text) = word.map Char.toLower ++ fold text
  := by
  induction word with
  | nil => rfl
  | cons c word ih =>
    obtain ⟨hc, hword⟩ := List.forall_mem_cons.mp h
    rw [List.cons_append, fold_of_not_isBlank hc, ih hword, List.map_cons, List.cons_append]

/-- The beginning of a text is folded to the beginning of the folded text. -/
theorem fold_isPrefix (text rest : List Char) :
  fold text <+: fold (text ++ rest)
  := by
  induction text with
  | nil => apply List.nil_prefix
  | cons c text ih =>
    rw [List.cons_append]
    by_cases hc : isBlank c
    · rw [fold_of_isBlank hc, fold_of_isBlank hc]
      apply List.cons_prefix_cons.mpr
      use rfl
      obtain ⟨tail, htail⟩ := ih
      rw [← htail, List.dropWhile_append]
      split
      · rename_i hempty
        rw [List.isEmpty_iff.mp hempty]
        apply List.nil_prefix
      · apply List.prefix_append
    · rw [fold_of_not_isBlank (Bool.eq_false_iff.mpr hc),
        fold_of_not_isBlank (Bool.eq_false_iff.mpr hc)]
      apply List.cons_prefix_cons.mpr
      exact ⟨rfl, ih⟩

/-- Something is left of every text that is not empty. -/
theorem fold_ne_nil {text : List Char} (h : text ≠ []) :
  fold text ≠ []
  := by
  obtain ⟨c, text, rfl⟩ := List.exists_cons_of_ne_nil h
  rw [fold]
  split <;> apply List.cons_ne_nil

/-- A folded character that is no blank comes from one character. -/
theorem exists_cons_of_fold_eq {text folded : List Char} {d : Char} (hd : isBlank d = false)
    (h : fold text = d :: folded) :
  ∃ c others, text = c :: others ∧ isBlank c = false ∧ c.toLower = d ∧ fold others = folded
  := by
  cases text with
  | nil => cases h
  | cons c others =>
    by_cases hc : isBlank c
    · rw [fold_of_isBlank hc] at h
      cases h
      cases hd
    · rw [Bool.not_eq_true] at hc
      rw [fold_of_not_isBlank hc] at h
      obtain ⟨hlower, hfold⟩ := List.cons_eq_cons.mp h
      exact ⟨c, others, rfl, hc, hlower, hfold⟩

/-- A folded blank comes from a blank. -/
theorem exists_blank_of_fold_eq {text folded : List Char} (h : fold text = ' ' :: folded) :
  ∃ c others, text = c :: others ∧ isBlank c
  := by
  cases text with
  | nil => cases h
  | cons c others =>
    refine ⟨c, others, rfl, ?_⟩
    by_contra hc
    rw [fold_of_not_isBlank (Bool.eq_false_iff.mpr hc)] at h
    rw [← ignoresCase_isBlank, (List.cons_eq_cons.mp h).1] at hc
    apply hc rfl

theorem forall_mem_cons_takeWhile {c : Char} (h : isBlank c) (text : List Char) :
  ∀ d ∈ c :: text.takeWhile isBlank, isBlank d
  := List.forall_mem_cons.mpr ⟨h, fun _ => List.mem_takeWhile_imp⟩

/-- A text that is folded to a single word differs from the word only in case. -/
theorem map_toLower_of_fold_eq {text word : List Char} (hword : ∀ c ∈ word, isBlank c = false)
    (h : fold text = word) :
  text.map Char.toLower = word
  := by
  induction word generalizing text with
  | nil =>
    cases text with
    | nil => rfl
    | cons c text => cases fold_ne_nil (List.cons_ne_nil c text) h
  | cons d word ih =>
    obtain ⟨hd, hword⟩ := List.forall_mem_cons.mp hword
    obtain ⟨c, others, rfl, -, hlower, hothers⟩ := exists_cons_of_fold_eq hd h
    rw [List.map_cons, hlower, ih hword hothers]

/-! ### Cutting a text after a word -/

/-- A text does not end in a blank. -/
def EndsInWord (text : List Char) : Prop :=
  ∀ c ∈ text.getLast?, isBlank c = false

/-- What ends in a word does so without its first character. -/
theorem endsInWord_of_cons {c : Char} {text : List Char} (h : EndsInWord (c :: text)) :
  EndsInWord text
  := by
  cases text with
  | nil => nofun
  | cons d text =>
    rwa [EndsInWord, List.getLast?_cons_cons] at h

/-- If blanks and what follows them end in a word, then something follows them. -/
theorem endsInWord_of_dropWhile {text : List Char}
    (h : EndsInWord (' ' :: text.dropWhile isBlank)) :
  EndsInWord text ∧ text.dropWhile isBlank ≠ []
  := by
  have hne : text.dropWhile isBlank ≠ [] := by
    intro hnil
    rw [hnil] at h
    cases h ' ' rfl
  have hlast := endsInWord_of_cons h
  refine ⟨?_, hne⟩
  rw [EndsInWord, ← @List.takeWhile_append_dropWhile _ isBlank text,
    List.getLast?_append_of_ne_nil _ hne]
  apply hlast

/-- A text may be cut after a word before it is folded. -/
theorem fold_append {text : List Char} (h : EndsInWord (fold text)) (rest : List Char) :
  fold (text ++ rest) = fold text ++ fold rest
  := by
  induction text with
  | nil => rfl
  | cons c text ih =>
    rw [List.cons_append]
    by_cases hc : isBlank c
    · rw [fold_of_isBlank hc] at h ⊢
      obtain ⟨hword, hne⟩ := endsInWord_of_dropWhile h
      rw [fold_of_isBlank hc, ih hword, List.dropWhile_append, if_neg (by simpa using hne),
        List.cons_append]
    · rw [Bool.not_eq_true] at hc
      rw [fold_of_not_isBlank hc] at h ⊢
      rw [fold_of_not_isBlank hc, ih (endsInWord_of_cons h), List.cons_append]

/-- A text can be cut where its folded text can be cut after a word. -/
theorem exists_append_of_fold_eq {text front back : List Char} (hfront : EndsInWord front)
    (h : fold text = front ++ back) :
  ∃ piece rest, text = piece ++ rest ∧ fold piece = front ∧ fold rest = back
  := by
  induction front generalizing text with
  | nil => exact ⟨[], text, rfl, rfl, h⟩
  | cons d front ih =>
    have hword := endsInWord_of_cons hfront
    cases text with
    | nil => cases h
    | cons c text =>
      by_cases hc : isBlank c
      · rw [fold_of_isBlank hc, List.cons_append] at h
        obtain ⟨rfl, htail⟩ := List.cons_eq_cons.mp h
        have hdrop : front.dropWhile isBlank = front := by
          cases front with
          | nil => rfl
          | cons e front =>
            apply List.dropWhile_eq_self_iff.mpr
            intro hlength
            have hself := @List.dropWhile_idempotent _ isBlank (fold text)
            rw [htail] at hself
            apply List.dropWhile_eq_self_iff.mp hself (Nat.succ_pos _)
        rw [dropWhile_isBlank_fold] at htail
        obtain ⟨piece, rest, hsplit, hpiece, hrest⟩ := ih hword htail
        use (c :: text.takeWhile isBlank) ++ piece, rest
        rw [fold_blanks_append (List.cons_ne_nil _ _) (forall_mem_cons_takeWhile hc text), hpiece,
          hdrop, List.append_assoc, ← hsplit, List.cons_append, List.takeWhile_append_dropWhile]
        exact ⟨rfl, rfl, hrest⟩
      · rw [Bool.not_eq_true] at hc
        rw [fold_of_not_isBlank hc, List.cons_append] at h
        obtain ⟨rfl, htail⟩ := List.cons_eq_cons.mp h
        obtain ⟨piece, rest, rfl, hpiece, hrest⟩ := ih hword htail
        use c :: piece, rest, rfl
        rw [fold_of_not_isBlank hc, hpiece]
        exact ⟨rfl, hrest⟩

/-! ### Characters of a class at the front -/

/-- A text begins with characters of a class, which may be none, up to the first that is not of the
class. -/
theorem exists_span (p : Char → Bool) (text : List Char) :
  ∃ taken rest, text = taken ++ rest ∧ (∀ c ∈ taken, p c) ∧ ∀ c ∈ rest.head?, ¬ p c
  := by
  use text.takeWhile p, text.dropWhile p, List.takeWhile_append_dropWhile.symm
  use fun c => List.mem_takeWhile_imp
  intro c hc
  have hhead := List.head?_dropWhile_not p text
  rw [hc] at hhead
  simpa using hhead

/-- Whether a text begins with a character of a class can be seen after folding. -/
theorem forall_head?_of_fold_eq {p : Char → Bool} (hcase : IgnoresCase p)
    (hblank : ∀ c, p c → isBlank c = false) {text text' : List Char}
    (hfold : fold text' = fold text) (h : ∀ c ∈ text.head?, ¬ p c) :
  ∀ c ∈ text'.head?, ¬ p c
  := by
  intro c hhead hc
  obtain ⟨others, rfl⟩ := List.head?_eq_some_iff.mp hhead
  rw [fold_of_not_isBlank (hblank c hc)] at hfold
  have hlower : isBlank c.toLower = false := by rw [ignoresCase_isBlank, hblank c hc]
  obtain ⟨d, others, rfl, -, hd, -⟩ := exists_cons_of_fold_eq hlower hfold.symm
  apply h d rfl
  rwa [← hcase, hd, hcase]

end StackCompiler.Text
