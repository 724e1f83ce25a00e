import StackCompiler.Proofs.Compile.ErrorSpans

/-!
# Keywords are unambiguous

A keyword stands at the front of a text exactly if the words of the text, cut at its blanks, are
the words of the keyword up to case.  What a keyword takes consists of characters of one byte, so it
is as long in bytes as in characters.

Different keywords never take the same number of characters of one text: the same piece of a text
cannot have the words of both.  So the longest match is a match of one keyword, and the order of the
table, which would decide between equally long matches, is never consulted.
-/

namespace StackCompiler

namespace Text

/-! ### Words -/

/-- A text cut at its blanks, where blanks in a row are one cut.  Blanks at an end of the text leave
an empty word there. -/
def splitAtBlanks : List Char → List (List Char)
  | [] => [[]]
  | c :: text =>
    if isBlank c then [] :: splitAtBlanks (text.dropWhile isBlank)
    else (splitAtBlanks text).modifyHead (c :: ·)
termination_by text => text.length
decreasing_by
  · have hle := (List.dropWhile_suffix isBlank (l := text)).length_le
    rw [List.length_cons]
    omega
  · exact Nat.lt_succ_self _

theorem map_modifyHead_cons {α β : Type} (f : α → β) (a : α) (words : List (List α)) :
  (words.modifyHead (a :: ·)).map (List.map f) = (words.map (List.map f)).modifyHead (f a :: ·)
  := by
  cases words <;> rfl

/-- Words in lower case are the words of the folded text. -/
theorem map_toLower_splitAtBlanks (text : List Char) :
  (splitAtBlanks text).map (List.map Char.toLower) = (fold text).splitOn ' '
  := by
  fun_induction splitAtBlanks text with
  | case1 => rfl
  | case2 c text hblank ih =>
    rw [fold_of_isBlank hblank, dropWhile_isBlank_fold, List.splitOn_cons_eq_if_modifyHead,
      if_pos (beq_self_eq_true ' '), List.map_cons, ih, List.map_nil]
  | case3 c text hblank ih =>
    have hlower : c.toLower ≠ ' ' := by
      intro hspace
      rw [← ignoresCase_isBlank, hspace] at hblank
      exact hblank rfl
    rw [fold_of_not_isBlank (Bool.eq_false_iff.mpr hblank), List.splitOn_cons_eq_if_modifyHead,
      if_neg (by simpa using hlower), map_modifyHead_cons, ih]

theorem map_toLower_splitOn (text : List Char) :
  (text.splitOn ' ').map (List.map Char.toLower) = (text.map Char.toLower).splitOn ' '
  := by
  induction text with
  | nil => rfl
  | cons c text ih =>
    have hspace : c.toLower = ' ' ↔ c = ' ' := by
      constructor
      · exact @eq_of_toLower_eq c ' ' rfl
      · rintro rfl
        rfl
    rw [List.map_cons, List.splitOn_cons_eq_if_modifyHead, List.splitOn_cons_eq_if_modifyHead, ← ih]
    by_cases hc : c = ' '
    · subst hc
      rfl
    · rw [if_neg (by simpa using hc), if_neg (by simpa [hspace] using hc), map_modifyHead_cons]

/-! ### Characters of one byte -/

theorem utf8Size_of_isBlank {c : Char} (h : isBlank c) :
  c.utf8Size = 1
  := by
  simp only [isBlank, Bool.or_eq_true, beq_iff_eq] at h
  rcases h with (((rfl | rfl) | rfl) | rfl) | rfl <;> rfl

theorem utf8Size_of_toLower {c : Char} (h : c.toLower.utf8Size = 1) :
  c.utf8Size = 1
  := by
  rcases toLower_cases c with heq | ⟨hupper, -⟩
  · rwa [heq] at h
  · rw [isUpper_iff] at hupper
    rw [Char.utf8Size_eq_one_iff, UInt32.le_iff_toNat_le]
    exact hupper.2.trans (by decide)

/-- A text that is folded to characters of one byte has only such characters itself. -/
theorem byteLength_of_fold {text : List Char} (h : ∀ c ∈ fold text, c.utf8Size = 1) :
  byteLength text = text.length
  := by
  induction text with
  | nil => rfl
  | cons c text ih =>
    have hboth : c.utf8Size = 1 ∧ ∀ d ∈ fold text, d.utf8Size = 1 := by
      by_cases hc : isBlank c
      · rw [fold_of_isBlank hc] at h
        refine ⟨utf8Size_of_isBlank hc, fun d hd => ?_⟩
        rw [← @List.takeWhile_append_dropWhile _ isBlank (fold text)] at hd
        rcases List.mem_append.mp hd with hd | hd
        · exact utf8Size_of_isBlank (List.mem_takeWhile_imp hd)
        · exact h d (List.mem_cons_of_mem _ hd)
      · rw [fold_of_not_isBlank (Bool.eq_false_iff.mpr hc)] at h
        obtain ⟨hlower, htext⟩ := List.forall_mem_cons.mp h
        exact ⟨utf8Size_of_toLower hlower, htext⟩
    rw [byteLength_cons, hboth.1, ih hboth.2, List.length_cons, Nat.add_comm]

end Text

namespace Keyword

open Text

/-! ### What a keyword takes -/

/-- The words of a text are those of a keyword, up to case. -/
def SameWords (text : List Char) (keyword : String) : Prop :=
  (splitAtBlanks text).map (List.map Char.toLower)
    = (keyword.toList.splitOn ' ').map (List.map Char.toLower)

/-- A text has the words of a keyword exactly if it is folded to the keyword in lower case. -/
theorem sameWords_iff {text : List Char} {keyword : String} :
  SameWords text keyword ↔ fold text = lower keyword
  := by
  rw [SameWords, map_toLower_splitAtBlanks, map_toLower_splitOn, ← lower]
  constructor
  · intro h
    rw [← @List.intercalate_splitOn _ (fold text) _ _ ' ', h, List.intercalate_splitOn]
  · intro h
    rw [h]

section Entries

variable {entry other : String × TokenKind} (hentry : entry ∈ all) {text : List Char}
  {length : Nat}

include hentry

/-- A keyword takes a number of characters exactly if these are its words. -/
theorem length?_eq_some_iff :
  length? entry.1.toList text = some length
    ↔ length ≤ text.length ∧ SameWords (text.take length) entry.1
  := by
  have hphrase := isPhrase_of_mem hentry
  have htaken : fold (text.take length) = lower entry.1 →
      length? entry.1.toList text = some (text.take length).length := by
    intro hfold
    have hfound := length?_of_fold_eq hphrase hfold (text.drop length)
    rwa [List.take_append_drop] at hfound
  rw [sameWords_iff]
  constructor
  · intro h
    have hfold := fold_of_length? hphrase h
    have hlength := Option.some.inj (h.symm.trans (htaken hfold))
    rw [List.length_take] at hlength
    exact ⟨by omega, hfold⟩
  · rintro ⟨hle, hfold⟩
    rw [htaken hfold, List.length_take, Nat.min_eq_left hle]

theorem length_pos (h : length? entry.1.toList text = some length) :
  0 < length
  := by
  obtain ⟨c, others, hlower, -⟩ := exists_lower_eq_cons hentry
  have hfold := sameWords_iff.mp ((length?_eq_some_iff hentry).mp h).2
  apply Nat.pos_of_ne_zero
  rintro rfl
  rw [List.take_zero, hlower] at hfold
  cases hfold

/-- A keyword takes as many bytes as characters. -/
theorem byteLength_take (h : length? entry.1.toList text = some length) :
  byteLength (text.take length) = length
  := by
  have hbytes : ∀ c ∈ lower entry.1, c.utf8Size = 1 := fun c hc => (bytes_of_mem_lower hentry hc).1
  obtain ⟨hle, hwords⟩ := (length?_eq_some_iff hentry).mp h
  rw [sameWords_iff] at hwords
  rw [byteLength_of_fold (hwords ▸ hbytes), List.length_take, Nat.min_eq_left hle]

/-- What a keyword takes ends between two characters. -/
theorem isValid_length (h : length? entry.1.toList text = some length) :
  String.Pos.Raw.IsValid (String.ofList text) ⟨length⟩
  := by
  apply isValid_iff.mpr
  use text.take length, text.drop length
  rw [String.toList_ofList, List.take_append_drop, byteLength_take hentry h]
  exact ⟨rfl, rfl⟩

/-- Different keywords never take the same number of characters. -/
theorem eq_of_length?_eq (hother : other ∈ all) (h : length? entry.1.toList text = some length)
    (h' : length? other.1.toList text = some length) :
  entry = other
  := by
  apply eq_of_lower_eq hentry hother
  rw [← sameWords_iff.mp ((length?_eq_some_iff hentry).mp h).2,
    ← sameWords_iff.mp ((length?_eq_some_iff hother).mp h').2]

end Entries

/-! ### The order of the table -/

/-- The matches of the keywords of a table at the front of a text. -/
def matchesIn (table : List (String × TokenKind)) (text : List Char) : List (TokenKind × Nat) :=
  table.filterMap fun (keyword, kind) =>
    (length? keyword.toList text).map fun length => (kind, length)

/-- The longest match of the keywords of a table. -/
def longestIn? (table : List (String × TokenKind)) (text : List Char) : Option (TokenKind × Nat) :=
  (matchesIn table text).foldl longer none

theorem longest?_eq_longestIn? (text : List Char) :
  longest? text = longestIn? all text
  := rfl

/-- Among matches of different lengths, the longest one is found. -/
theorem foldl_longer_eq_some_iff {found : List (TokenKind × Nat)}
    (hunique : ∀ x ∈ found, ∀ y ∈ found, x.2 = y.2 → x = y) {x : TokenKind × Nat} :
  found.foldl longer none = some x ↔ x ∈ found ∧ ∀ y ∈ found, y.2 ≤ x.2
  := by
  constructor
  · intro h
    exact ⟨(mem_of_foldl_longer h).resolve_right nofun, (le_of_foldl_longer h).2⟩
  · rintro ⟨hmem, hle⟩
    obtain ⟨best, hbest⟩ : ∃ best, found.foldl longer none = some best := by
      cases found with
      | nil => cases hmem
      | cons first found => exact Option.ne_none_iff_exists'.mp (foldl_longer_some found first)
    have hbestmem := (mem_of_foldl_longer hbest).resolve_right nofun
    have hlength := Nat.le_antisymm (hle best hbestmem) ((le_of_foldl_longer hbest).2 x hmem)
    rw [hbest, hunique best hbestmem x hmem hlength]

theorem matches_unique (text : List Char) :
  ∀ x ∈ matchesIn all text, ∀ y ∈ matchesIn all text, x.2 = y.2 → x = y
  := by
  rintro ⟨kind, length⟩ hx ⟨kind', length'⟩ hy rfl
  obtain ⟨keyword, hkeyword, hlength⟩ := mem_matches_iff.mp hx
  obtain ⟨keyword', hkeyword', hlength'⟩ := mem_matches_iff.mp hy
  cases eq_of_length?_eq hkeyword hkeyword' hlength hlength'
  rfl

theorem longestIn?_of_perm {table : List (String × TokenKind)} (h : table.Perm all)
    (text : List Char) :
  longestIn? table text = longest? text
  := by
  have hperm : (matchesIn table text).Perm (matchesIn all text) := h.filterMap _
  have hunique := matches_unique text
  apply Option.ext
  intro found
  rw [longest?_eq_longestIn?, longestIn?, longestIn?, foldl_longer_eq_some_iff hunique,
    foldl_longer_eq_some_iff (by simpa only [hperm.mem_iff] using hunique)]
  simp only [hperm.mem_iff]

theorem longest?_eq_some_iff_greatest {text : List Char} {kind : TokenKind} {length : Nat} :
  longest? text = some (kind, length)
    ↔ (∃ keyword, (keyword, kind) ∈ all ∧ length? keyword.toList text = some length)
      ∧ ∀ entry ∈ all, ∀ other, length? entry.1.toList text = some other → other ≤ length
  := by
  rw [longest?_eq_longestIn?, longestIn?, foldl_longer_eq_some_iff (matches_unique text)]
  apply and_congr mem_matches_iff
  constructor
  · intro h entry hentry other hother
    exact h _ (mem_matches_iff.mpr ⟨entry.1, hentry, hother⟩)
  · rintro h ⟨kind', other⟩ hmem
    obtain ⟨keyword, hkeyword, hother⟩ := mem_matches_iff.mp hmem
    exact h _ hkeyword other hother

/-- For every text, different keywords of the table take different numbers of characters, so at most
one of them takes most, and the same one is found in whatever order they are tried.  A keyword takes
exactly those characters at the front that have its words, up to case; it takes at least one, and
ends between two characters. -/
theorem matching_unambiguous (text : List Char) :
  all.Nodup
    ∧ (∀ entry ∈ all, ∀ other ∈ all, ∀ length, length? entry.1.toList text = some length →
        length? other.1.toList text = some length → entry = other)
    ∧ (∀ table, table.Perm all → longestIn? table text = longest? text)
    ∧ (∀ kind length, longest? text = some (kind, length)
        ↔ (∃ keyword, (keyword, kind) ∈ all ∧ length? keyword.toList text = some length)
          ∧ ∀ entry ∈ all, ∀ other, length? entry.1.toList text = some other → other ≤ length)
    ∧ ∀ entry ∈ all, ∀ length,
        (length? entry.1.toList text = some length
          ↔ length ≤ text.length ∧ SameWords (text.take length) entry.1)
        ∧ (length? entry.1.toList text = some length →
            0 < length ∧ byteLength (text.take length) = length
              ∧ String.Pos.Raw.IsValid (String.ofList text) ⟨length⟩)
  := by
  refine ⟨by decide +kernel, fun entry hentry other hother length => eq_of_length?_eq hentry hother,
    fun table htable => longestIn?_of_perm htable text, fun kind length =>
    longest?_eq_some_iff_greatest, fun entry hentry length => ⟨length?_eq_some_iff hentry, ?_⟩⟩
  intro h
  exact ⟨length_pos hentry h, byteLength_take hentry h, isValid_length hentry h⟩

-- what comes first in the table does not win over what is longer, nor does what comes last
example :
  longestIn? all "OUT_S x".toList = some (.unary (.output .outS), 5)
    ∧ longestIn? all.reverse "OUT_S x".toList = some (.unary (.output .outS), 5)
  := by
  decide +kernel

end Keyword

end StackCompiler
