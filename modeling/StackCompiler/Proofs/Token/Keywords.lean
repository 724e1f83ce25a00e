import Mathlib.Data.List.Perm.Basic
import StackCompiler.Proofs.Program.Parsed
import StackCompiler.Proofs.Token.Folding

/-!
# Keywords at the front of a text

A keyword stands at the front of a text exactly if, in lower case, it is the beginning of the folded
text.  So of two keywords that stand at the front of one text, one begins with the other, and it is
the longer one as a keyword that takes more of the text, however many blanks there are.  No two
keywords are the same up to case.  So there is one longest keyword, and the order in which keywords
are tried does not matter.
-/

namespace StackCompiler.Keyword

open Text

/-- Whether all blanks of a keyword are single spaces with a word after them. -/
def isPhrase : List Char → Bool
  | [] => true
  | c :: keyword =>
    if c == ' ' then keyword.head?.any (!isBlank ·) && isPhrase keyword
    else !isBlank c && isPhrase keyword

/-- After a space in a phrase comes a word. -/
theorem isPhrase_space {keyword : List Char} (h : isPhrase (' ' :: keyword)) :
  isPhrase keyword ∧ ∃ c rest, keyword = c :: rest ∧ isBlank c = false
  := by
  simp only [isPhrase, beq_self_eq_true, if_true, Bool.and_eq_true] at h
  obtain ⟨hhead, hphrase⟩ := h
  use hphrase
  cases keyword with
  | nil => cases hhead
  | cons c rest => exact ⟨c, rest, rfl, by simpa using hhead⟩

/-- After a letter of a phrase comes the rest of the phrase. -/
theorem isPhrase_letter {letter : Char} {keyword : List Char} (hletter : letter ≠ ' ')
    (h : isPhrase (letter :: keyword)) :
  isPhrase keyword ∧ isBlank letter = false
  := by
  simp only [isPhrase, beq_iff_eq, hletter, if_false, Bool.and_eq_true, Bool.not_eq_true'] at h
  exact ⟨h.2, h.1⟩

/-- A space in a keyword takes all blanks at the front of a text, and needs one. -/
theorem length?_space (keyword text : List Char) :
  length? (' ' :: keyword) text
    = if (text.takeWhile isBlank).isEmpty then none
      else (length? keyword (text.dropWhile isBlank)).map ((text.takeWhile isBlank).length + ·)
  := by
  have hdrop : text.drop (text.takeWhile isBlank).length = text.dropWhile isBlank := by
    nth_rewrite 2 [← @List.takeWhile_append_dropWhile _ isBlank text]
    apply List.drop_left
  rw [length?]
  split
  · rename_i hnone
    rw [hnone]
    rfl
  · rename_i hsome
    rw [if_neg (by simpa using hsome), hdrop]

/-- A letter is matched in any case. -/
theorem length?_letter {letter : Char} (hletter : letter ≠ ' ') (keyword : List Char) (c : Char)
    (text : List Char) :
  length? (letter :: keyword) (c :: text)
    = if letter.toLower = c.toLower then (length? keyword text).map (1 + ·) else none
  := by
  rw [length?]
  · simp only [beq_iff_eq]
  · exact hletter

/-- A phrase is folded to itself in lower case. -/
theorem fold_of_isPhrase {keyword : List Char} (h : isPhrase keyword) :
  fold keyword = keyword.map Char.toLower
  := by
  induction keyword with
  | nil => rfl
  | cons letter keyword ih =>
    by_cases hletter : letter = ' '
    · subst hletter
      obtain ⟨hphrase, c, rest, rfl, hc⟩ := isPhrase_space h
      rw [fold_of_isBlank (by decide), dropWhile_isBlank_fold,
        List.dropWhile_cons_of_neg (by rw [hc]; decide), ih hphrase]
      rfl
    · obtain ⟨hphrase, hblank⟩ := isPhrase_letter hletter h
      rw [fold_of_not_isBlank hblank, ih hphrase, List.map_cons]

/-- What a keyword takes of a text is folded to the keyword in lower case. -/
theorem fold_of_length? {keyword text : List Char} {length : Nat} (hphrase : isPhrase keyword)
    (h : length? keyword text = some length) :
  fold (text.take length) = keyword.map Char.toLower
  := by
  induction keyword generalizing text length with
  | nil =>
    rw [length?] at h
    cases h
    rw [List.take_zero]
    rfl
  | cons letter keyword ih =>
    by_cases hletter : letter = ' '
    · subst hletter
      obtain ⟨hphrase, c, rest, rfl, hc⟩ := isPhrase_space hphrase
      rw [length?_space] at h
      split at h
      · cases h
      · rename_i hblanks
        obtain ⟨after, hafter, rfl⟩ := Option.map_eq_some_iff.mp h
        have htaken := ih hphrase hafter
        have hall : ∀ d ∈ text.takeWhile isBlank, isBlank d := fun d => List.mem_takeWhile_imp
        have hne : text.takeWhile isBlank ≠ [] := by simpa using hblanks
        have hlower : ¬ isBlank c.toLower := by rw [ignoresCase_isBlank, hc]; decide
        have hsplit := @List.takeWhile_append_dropWhile _ isBlank text
        generalize text.takeWhile isBlank = blanks at *
        generalize text.dropWhile isBlank = others at *
        subst hsplit
        rw [List.take_length_add_append, fold_blanks_append hne hall, htaken, List.map_cons,
          List.map_cons, List.dropWhile_cons_of_neg hlower]
        rfl
    · cases text with
      | nil =>
        rw [length?] at h
        · cases h
        · exact hletter
      | cons c text =>
        obtain ⟨hphrase, hblank⟩ := isPhrase_letter hletter hphrase
        rw [length?_letter hletter] at h
        split at h
        · rename_i heq
          obtain ⟨after, hafter, rfl⟩ := Option.map_eq_some_iff.mp h
          have hc : isBlank c = false := by
            rw [← ignoresCase_isBlank, ← heq, ignoresCase_isBlank, hblank]
          rw [Nat.add_comm 1 after, List.take_succ_cons, fold_of_not_isBlank hc, ih hphrase hafter,
            List.map_cons, heq]
        · cases h

/-- A space is matched by any number of blanks but none. -/
theorem length?_blanks {blanks text : List Char} (hne : blanks ≠ [])
    (hblanks : ∀ c ∈ blanks, isBlank c) (htext : ∀ c ∈ text.head?, ¬ isBlank c)
    (keyword : List Char) :
  length? (' ' :: keyword) (blanks ++ text) = (length? keyword text).map (blanks.length + ·)
  := by
  have hdrop : text.dropWhile isBlank = text := by
    cases text with
    | nil => rfl
    | cons c text => apply List.dropWhile_cons_of_neg (htext c rfl)
  rw [length?_space, takeWhile_append_of_head? hblanks htext, if_neg (by simpa using hne),
    List.dropWhile_append_of_pos hblanks, hdrop]

/-- A keyword takes what is folded to it, whatever follows. -/
theorem length?_of_fold_eq {keyword piece : List Char} (hphrase : isPhrase keyword)
    (h : fold piece = keyword.map Char.toLower) (rest : List Char) :
  length? keyword (piece ++ rest) = some piece.length
  := by
  induction keyword generalizing piece with
  | nil =>
    have hnil : piece = [] := by
      by_contra hne
      apply fold_ne_nil hne h
    rw [hnil, length?]
    rfl
  | cons letter keyword ih =>
    by_cases hletter : letter = ' '
    · subst hletter
      obtain ⟨hphrase, d, keyword, rfl, hd⟩ := isPhrase_space hphrase
      obtain ⟨c, others, rfl, hc⟩ := exists_blank_of_fold_eq h
      rw [fold_of_isBlank hc, dropWhile_isBlank_fold] at h
      obtain ⟨-, hothers⟩ := List.cons_eq_cons.mp h
      have hfound := ih hphrase hothers
      -- The blanks end where the next word of the keyword begins.
      have hlower : isBlank d.toLower = false := by rw [ignoresCase_isBlank, hd]
      obtain ⟨e, word, hword, he, -⟩ := exists_cons_of_fold_eq hlower hothers
      have hstop : ∀ e' ∈ (e :: word ++ rest).head?, ¬ isBlank e' := by
        rintro e' ⟨⟩
        rw [he]
        decide
      have hsplit : c :: others = (c :: others.takeWhile isBlank) ++ (e :: word) := by
        rw [← hword, List.cons_append, List.takeWhile_append_dropWhile]
      rw [hword] at hfound
      rw [hsplit, List.append_assoc, length?_blanks (List.cons_ne_nil _ _)
        (forall_mem_cons_takeWhile hc others) hstop, hfound, Option.map_some, List.length_append]
    · obtain ⟨hphrase, hblank⟩ := isPhrase_letter hletter hphrase
      have hlower : isBlank letter.toLower = false := by rw [ignoresCase_isBlank, hblank]
      obtain ⟨c, others, rfl, -, hcase, hothers⟩ := exists_cons_of_fold_eq hlower h
      rw [List.cons_append, length?_letter hletter, if_pos hcase.symm, ih hphrase hothers,
        Option.map_some, Nat.add_comm, List.length_cons]

/-- A phrase ends in a word. -/
theorem endsInWord_of_isPhrase {keyword : List Char} (h : isPhrase keyword) :
  EndsInWord (keyword.map Char.toLower)
  := by
  induction keyword with
  | nil => nofun
  | cons letter keyword ih =>
    cases keyword with
    | nil =>
      have hletter : letter ≠ ' ' := by
        rintro rfl
        obtain ⟨-, c, rest, hnil, -⟩ := isPhrase_space h
        cases hnil
      intro c hc
      obtain rfl : letter.toLower = c := Option.some.inj hc
      rw [ignoresCase_isBlank, (isPhrase_letter hletter h).2]
    | cons d keyword =>
      have hphrase : isPhrase (d :: keyword) := by
        by_cases hletter : letter = ' '
        · rw [hletter] at h
          apply (isPhrase_space h).1
        · apply (isPhrase_letter hletter h).1
      rw [EndsInWord, List.map_cons, List.map_cons, List.getLast?_cons_cons]
      apply ih hphrase

/-! ### The table -/

/-- The arithmetic operators as single characters. -/
def symbols : List (String × TokenKind) :=
  [("+", .binary (.arithmetic .add)),
   ("-", .binary (.arithmetic .sub)),
   ("*", .binary (.arithmetic .mul)),
   ("/", .binary (.arithmetic .div)),
   ("^", .binary (.arithmetic .pow))]

/-- The table has an entry for every operator and for every mark but the end of the input, with the
text that messages show for it, and one for every symbol.  It has no other entry and none twice. -/
theorem all_perm :
  all.Perm
    ((Mark.all.filter (· != .endOfInput)).map (fun mark => (mark.keyword, .mark mark))
      ++ BinaryOp.all.map (fun op => (op.keyword, .binary op))
      ++ symbols
      ++ UnaryOp.all.map (fun op => (op.keyword, .unary op))
      ++ ControlOp.all.map (fun op => (op.keyword, .control op)))
  := by
  decide +kernel

/-! ### The longest keyword -/

/-- A keyword in lower case. -/
def lower (keyword : String) : List Char :=
  keyword.toList.map Char.toLower

/-- What is asked of a keyword: it is a phrase that begins with neither a blank nor a digit, and its
characters take one byte each and are not NUL. -/
def isWellSpelled (keyword : String) : Bool :=
  isPhrase keyword.toList
    && (lower keyword).head?.any (fun c => !isBlank c && !c.isDigit)
    && (lower keyword).all fun c => c.utf8Size == 1 && c != '\x00'

/-- A keyword stands at the front of a text. -/
def Starts (keyword : String) (text : List Char) : Prop :=
  lower keyword <+: fold text

section Entries

variable {entry other : String × TokenKind} (hentry : entry ∈ all) (hother : other ∈ all)

include hentry

/-- All keywords of the table are spelled as they should be. -/
theorem isWellSpelled_of_mem :
  isWellSpelled entry.1
  := by
  have hall : ∀ entry ∈ all, isWellSpelled entry.1 := by decide +kernel
  apply hall entry hentry

/-- The keywords are phrases. -/
theorem isPhrase_of_mem :
  isPhrase entry.1.toList
  := by
  have hspelled := isWellSpelled_of_mem hentry
  simp only [isWellSpelled, Bool.and_eq_true] at hspelled
  exact hspelled.1.1

/-- The keywords end in words. -/
theorem endsInWord_lower :
  EndsInWord (lower entry.1)
  := endsInWord_of_isPhrase (isPhrase_of_mem hentry)

/-- The keywords are not empty and begin with neither a blank nor a digit. -/
theorem exists_lower_eq_cons :
  ∃ c others, lower entry.1 = c :: others ∧ isBlank c = false ∧ c.isDigit = false
  := by
  have hspelled := isWellSpelled_of_mem hentry
  simp only [isWellSpelled, Bool.and_eq_true] at hspelled
  have hhead := hspelled.1.2
  cases hlower : lower entry.1 with
  | nil =>
    rw [hlower] at hhead
    cases hhead
  | cons c others =>
    rw [hlower] at hhead
    exact ⟨c, others, rfl, by simpa using hhead⟩

/-- The characters of the keywords take one byte each, and none of them is NUL. -/
theorem bytes_of_mem_lower {c : Char} (hc : c ∈ lower entry.1) :
  c.utf8Size = 1 ∧ c ≠ '\x00'
  := by
  have hspelled := isWellSpelled_of_mem hentry
  simp only [isWellSpelled, Bool.and_eq_true] at hspelled
  simpa using List.all_eq_true.mp hspelled.2 c hc

/-- A keyword starts a text if and only if it is matched there. -/
theorem starts_iff {text : List Char} :
  Starts entry.1 text ↔ ∃ length, length? entry.1.toList text = some length
  := by
  constructor
  · rintro ⟨rest, hrest⟩
    obtain ⟨piece, rest, rfl, hpiece, -⟩ :=
      exists_append_of_fold_eq (endsInWord_lower hentry) hrest.symm
    exact ⟨piece.length, length?_of_fold_eq (isPhrase_of_mem hentry) hpiece rest⟩
  · rintro ⟨length, hlength⟩
    have htaken := fold_of_length? (isPhrase_of_mem hentry) hlength
    rw [Starts, lower, ← htaken]
    nth_rewrite 2 [← List.take_append_drop length text]
    apply fold_isPrefix

include hother

/-- No two keywords are the same up to case. -/
theorem eq_of_lower_eq (h : lower entry.1 = lower other.1) :
  entry = other
  := by
  have hall : ∀ entry ∈ all, ∀ other ∈ all, lower entry.1 = lower other.1 → entry = other := by
    decide +kernel
  apply hall entry hentry other hother h

/-- Of two keywords at the front of one text, the one that takes less is the beginning of the
other. -/
theorem lower_isPrefix_of_le {text : List Char} {length length' : Nat}
    (h : length? entry.1.toList text = some length)
    (h' : length? other.1.toList text = some length') (hle : length ≤ length') :
  lower entry.1 <+: lower other.1
  := by
  have htaken := fold_of_length? (isPhrase_of_mem hentry) h
  have htaken' := fold_of_length? (isPhrase_of_mem hother) h'
  have htake : text.take length = (text.take length').take length := by
    rw [List.take_take, Nat.min_eq_left hle]
  rw [lower, lower, ← htaken, ← htaken', htake]
  nth_rewrite 2 [← List.take_append_drop length (text.take length')]
  apply fold_isPrefix

end Entries

/-- No match is longer than the longest one. -/
theorem le_of_foldl_longer {found : List (TokenKind × Nat)} {best : Option (TokenKind × Nat)}
    {x : TokenKind × Nat} (h : found.foldl longer best = some x) :
  (∀ y ∈ best, y.2 ≤ x.2) ∧ ∀ y ∈ found, y.2 ≤ x.2
  := by
  induction found generalizing best with
  | nil =>
    rw [List.foldl_nil] at h
    subst h
    simp
  | cons first found ih =>
    obtain ⟨hlonger, hfound⟩ := ih h
    have hfirst : first.2 ≤ x.2 ∧ ∀ y ∈ best, y.2 ≤ x.2 := by
      cases best with
      | none => exact ⟨hlonger first rfl, by nofun⟩
      | some best =>
        simp only [longer] at hlonger
        split at hlonger <;> simp_all <;> omega
    use hfirst.2
    intro y hy
    rcases List.mem_cons.mp hy with rfl | hy
    · apply hfirst.1
    · apply hfound y hy

/-- Once a keyword is found, there is a longest one. -/
theorem foldl_longer_some (found : List (TokenKind × Nat)) (best : TokenKind × Nat) :
  found.foldl longer (some best) ≠ none
  := by
  induction found generalizing best with
  | nil => nofun
  | cons first found ih =>
    rw [List.foldl_cons, longer]
    split <;> apply ih

/-- The matches of all keywords at the front of a text. -/
theorem mem_matches_iff {text : List Char} {kind : TokenKind} {length : Nat} :
  (kind, length) ∈ all.filterMap (fun (keyword, kind) =>
      (length? keyword.toList text).map fun length => (kind, length))
    ↔ ∃ keyword, (keyword, kind) ∈ all ∧ length? keyword.toList text = some length
  := by
  simp only [List.mem_filterMap, Prod.exists, Option.map_eq_some_iff, Prod.mk.injEq]
  constructor
  · rintro ⟨keyword, kind, hmem, length, hlength, rfl, rfl⟩
    exact ⟨keyword, hmem, hlength⟩
  · rintro ⟨keyword, hmem, hlength⟩
    exact ⟨keyword, kind, hmem, length, hlength, rfl, rfl⟩

/-- A keyword is found if one starts the text. -/
theorem longest?_ne_none {text : List Char} {entry : String × TokenKind} (hentry : entry ∈ all)
    (h : Starts entry.1 text) :
  longest? text ≠ none
  := by
  obtain ⟨length, hlength⟩ := (starts_iff hentry).mp h
  have hmem := mem_matches_iff.mpr ⟨entry.1, hentry, hlength⟩
  rw [longest?]
  generalize all.filterMap _ = found at *
  cases found with
  | nil => cases hmem
  | cons first found => apply foldl_longer_some

/-- The longest keyword at the front of a text begins with each keyword at the front. -/
theorem exists_of_longest? {text : List Char} {kind : TokenKind} {length : Nat}
    (h : longest? text = some (kind, length)) :
  ∃ keyword, (keyword, kind) ∈ all ∧ length? keyword.toList text = some length
    ∧ ∀ entry ∈ all, Starts entry.1 text →
        lower entry.1 <+: lower keyword
  := by
  rcases mem_of_foldl_longer h with hmem | hnone
  · obtain ⟨keyword, hkeyword, hlength⟩ := mem_matches_iff.mp hmem
    use keyword, hkeyword, hlength
    intro entry hentry hstarts
    obtain ⟨length', hlength'⟩ := (starts_iff hentry).mp hstarts
    have hmem' := mem_matches_iff.mpr ⟨entry.1, hentry, hlength'⟩
    have hle := (le_of_foldl_longer h).2 _ hmem'
    apply lower_isPrefix_of_le hentry hkeyword hlength' hlength hle
  · cases hnone

/-- No keyword is found if and only if none starts the text. -/
theorem longest?_eq_none_iff {text : List Char} :
  longest? text = none ↔ ∀ entry ∈ all, ¬ Starts entry.1 text
  := by
  constructor
  · intro h entry hentry hstarts
    apply longest?_ne_none hentry hstarts h
  · intro h
    cases hlongest : longest? text with
    | none => rfl
    | some found =>
      obtain ⟨keyword, hkeyword, hlength, -⟩ := exists_of_longest? hlongest
      cases h _ hkeyword ((starts_iff hkeyword).mpr ⟨_, hlength⟩)

/-- There is one keyword at the front of a text that begins with all others, and it is found. -/
theorem longest?_eq_some_iff {text : List Char} {kind : TokenKind} {length : Nat} :
  longest? text = some (kind, length) ↔ ∃ keyword, (keyword, kind) ∈ all
    ∧ length? keyword.toList text = some length
    ∧ ∀ entry ∈ all, Starts entry.1 text →
        lower entry.1 <+: lower keyword
  := by
  constructor
  · apply exists_of_longest?
  · rintro ⟨keyword, hkeyword, hlength, hall⟩
    have hstarts := (starts_iff hkeyword).mpr ⟨length, hlength⟩
    obtain ⟨found, hfound⟩ := Option.ne_none_iff_exists'.mp (longest?_ne_none hkeyword hstarts)
    obtain ⟨keyword', hkeyword', hlength', hall'⟩ := exists_of_longest? hfound
    have hstarts' := (starts_iff hkeyword').mpr ⟨found.2, hlength'⟩
    have hsame : lower keyword = lower keyword' :=
      List.IsPrefix.eq_of_length_le (hall' _ hkeyword hstarts)
        (List.IsPrefix.length_le (hall _ hkeyword' hstarts'))
    obtain ⟨rfl, hkind⟩ := Prod.mk.inj (eq_of_lower_eq hkeyword hkeyword' hsame)
    rw [hfound, hkind, Option.some.inj (hlength.symm.trans hlength')]

end StackCompiler.Keyword
