import StackCompiler.Proofs.Token.Lexemes

/-!
# Tokens spelled out

Tokens can be written as a source again, each as it is spelled and with one space between them, and
the new source has the same tokens.  A keyword is still the longest, since no keyword goes on with a
space after another one.  A number is read back from its text.  A name could only become part of a
keyword that goes on with the tokens after it; but then these are names too, they stood after blanks
in the old source as they stand after spaces in the new one, and the keyword would have been found
in the old source.
-/

namespace StackCompiler

open Text

/-- The token as a source spells it. -/
def TokenKind.spelling : TokenKind → String
  | .mark m => m.keyword
  | .binary op => op.keyword
  | .unary op => op.keyword
  | .control op => op.keyword
  | .number value => value.text
  | .variable name => name
  | .function name => name

namespace Token

/-- What the tokens of a source are, without the end of the input. -/
def bodyKinds (tokens : List Token) : List TokenKind :=
  (tokens.map Token.kind).filter (· != .endOfInput)

/-- The source that spells tokens with one space between them. -/
def respell (tokens : List Token) : String :=
  " ".intercalate ((bodyKinds tokens).map TokenKind.spelling)

/-- Tokens with one space in front of each. -/
def gap : List TokenKind → List Char
  | [] => []
  | kind :: kinds => ' ' :: (kind.spelling.toList ++ gap kinds)

/-- Tokens with one space between them. -/
def spaced (kinds : List TokenKind) : List Char :=
  (gap kinds).tail

theorem toList_intercalate (kinds : List TokenKind) :
  (" ".intercalate (kinds.map TokenKind.spelling)).toList = spaced kinds
  := by
  induction kinds with
  | nil => rfl
  | cons kind kinds ih =>
    cases kinds with
    | nil =>
      rw [List.map_singleton, String.intercalate_singleton]
      apply (List.append_nil _).symm
    | cons other kinds =>
      rw [List.map_cons, List.map_cons, String.intercalate_cons_cons, String.toList_append,
        String.toList_append, ← List.map_cons, ih, List.append_assoc]
      rfl

end Token

/-! ### Spellings -/

namespace Keyword

/-- The token that a keyword makes is spelled by a keyword that makes the same token. -/
theorem spelling_mem {entry : String × TokenKind} (h : entry ∈ all) :
  (entry.2.spelling, entry.2) ∈ all
  := by
  have hall : ∀ entry ∈ all, (entry.2.spelling, entry.2) ∈ all := by decide +kernel
  apply hall entry h

theorem fold_toList {entry : String × TokenKind} (h : entry ∈ all) :
  fold entry.1.toList = lower entry.1
  := fold_of_isPhrase (isPhrase_of_mem h)

theorem fold_append {entry : String × TokenKind} (h : entry ∈ all) (rest : List Char) :
  fold (entry.1.toList ++ rest) = lower entry.1 ++ fold rest
  := by
  have hfold := fold_toList h
  have hends := endsInWord_lower h
  rw [← hfold] at hends ⊢
  apply Text.fold_append hends

/-- No keyword goes on with a space after another one. -/
theorem lower_ne_append_space {entry other : String × TokenKind} (hentry : entry ∈ all)
    (hother : other ∈ all) (more : List Char) :
  lower other.1 ≠ lower entry.1 ++ ' ' :: more
  := by
  have hall : ∀ entry ∈ all, ∀ other ∈ all, ¬ lower entry.1 ++ [' '] <+: lower other.1 := by
    decide +kernel
  intro heq
  apply hall entry hentry other hother
  rw [heq]
  exact ⟨more, List.append_assoc _ _ _⟩

/-- No keyword begins with a digit. -/
theorem not_starts_of_isDigit {entry : String × TokenKind} (h : entry ∈ all) {c : Char}
    (hdigit : c.isDigit) (text : List Char) :
  ¬ Starts entry.1 (c :: text)
  := by
  intro hstarts
  obtain ⟨d, others, hlower, -, hd⟩ := exists_lower_eq_cons h
  rw [Starts, hlower, fold_of_not_isBlank (isBlank_of_isDigit hdigit)] at hstarts
  rw [(List.cons_prefix_cons.mp hstarts).1, ignoresCase_isDigit, hdigit] at hd
  cases hd

/-- What a keyword has after one of its spaces. -/
def Continues (tail : List Char) : Prop :=
  ∃ entry ∈ all, ' ' :: tail <:+ lower entry.1

theorem Continues.of_suffix {tail more : List Char} (h : Continues tail)
    (hmore : ' ' :: more <:+ tail) :
  Continues more
  := by
  obtain ⟨entry, hentry, hsuffix⟩ := h
  exact ⟨entry, hentry, hmore.trans ((List.suffix_cons ' ' tail).trans hsuffix)⟩

/-- What a keyword has after one of its spaces begins with a letter.  No keyword begins with it, and
it does not begin with a keyword and a space. -/
theorem Continues.spec {tail : List Char} (h : Continues tail) :
  (∃ c ∈ tail.head?, c.isAlpha)
    ∧ ∀ entry ∈ all, ¬ tail <+: lower entry.1 ∧ ∀ more, tail ≠ lower entry.1 ++ ' ' :: more
  := by
  have hall : ∀ entry ∈ all, ∀ tail ∈ (lower entry.1).tails, tail.head? = some ' ' →
      tail.tail.head?.any Char.isAlpha ∧ ∀ entry ∈ all,
        ¬ tail.tail <+: lower entry.1 ∧ ¬ lower entry.1 ++ [' '] <+: tail.tail := by
    decide +kernel
  obtain ⟨entry, hentry, hsuffix⟩ := h
  obtain ⟨halpha, hkeywords⟩ :=
    hall entry hentry (' ' :: tail) ((List.mem_tails _ _).mpr hsuffix) rfl
  refine ⟨(Option.any_eq_true _ _).mp halpha, fun entry hentry =>
    ⟨(hkeywords entry hentry).1, ?_⟩⟩
  intro more heq
  apply (hkeywords entry hentry).2
  rw [heq]
  exact ⟨more, List.append_assoc _ _ _⟩

end Keyword

namespace Binary64

/-- The text of a finite number without a sign is a number as sources have them, and its digits are
read as the number. -/
theorem exists_numeral_text {x : Binary64} (hfinite : x.isFinite) (hnegative : x.negative = false) :
  ∃ whole fraction, Token.Numeral x.text.toList whole fraction
    ∧ (∃ c ∈ x.text.toList.head?, c.isDigit) ∧ ofDigits false whole fraction 0 = x
  := by
  obtain ⟨d, htext, hvalue⟩ := exists_numeral_eq hfinite
  have hnan := not_isNaN_of_isFinite hfinite
  obtain ⟨whole, fraction, hnumeral, hne, hwhole, hfraction, hdigits⟩ := d.numeral_eq
  have hlist : x.text.toList = whole ++ Decimal.pointed fraction := by
    rw [toList_text, if_neg hnan, hnegative, if_neg (by decide), List.nil_append, htext, hnumeral]
  obtain ⟨c, others, rfl⟩ := List.exists_cons_of_ne_nil hne
  have hall := List.forall_mem_append.mpr ⟨hwhole, hfraction⟩
  refine ⟨c :: others, fraction, ⟨List.cons_ne_nil _ _, hall, ?_⟩, ?_, ?_⟩
  · rw [hlist, Decimal.pointed]
    cases fraction with
    | nil => exact .inr ⟨List.append_nil _, rfl⟩
    | cons f fraction => exact .inl rfl
  · rw [hlist]
    exact ⟨c, rfl, hwhole c List.mem_cons_self⟩
  · rw [hnegative] at hvalue
    rw [ofDigits, ofDecimal_eq, zero_sub, hdigits, ← ofDecimal_eq, hvalue]

end Binary64

namespace Token

/-- What a token may be that a piece of a text makes. -/
theorem Reads.ok_cases {piece rest : List Char} {kind : TokenKind}
    (h : Reads piece rest (.ok kind)) :
  (∃ entry ∈ Keyword.all, entry.2 = kind)
    ∨ (∃ value : Binary64, value.isFinite ∧ value.negative = false ∧ .number value = kind)
    ∨ (nameResult piece = .ok kind ∧ IsName piece ∧ NoKeyword (piece ++ rest)
      ∧ ∀ c ∈ rest.head?, ¬ c.isAlphanum)
  := by
  obtain ⟨result, hresult⟩ : ∃ result, result = Except.ok kind := ⟨_, rfl⟩
  rw [← hresult] at h
  cases h with
  | keyword hentry hpiece hlongest =>
    cases hresult
    exact .inl ⟨_, hentry, rfl⟩
  | @number _ _ whole fraction hnone hpiece hrest =>
    rw [numberResult] at hresult
    split at hresult
    · rename_i hfinite
      cases hresult
      refine .inr (.inl ⟨_, hfinite, ?_, rfl⟩)
      rw [Binary64.ofDigits, Binary64.ofDecimal_eq, Binary64.negative_ofRational]
    · cases hresult
  | name hnone hpiece hrest => exact .inr (.inr ⟨hresult, hpiece, hnone, hrest⟩)
  | other => cases hresult

theorem eq_variable_of_nameResult {name : List Char} {kind : TokenKind}
    (h : nameResult name = .ok kind) :
  kind = .variable (String.ofList name)
  := by
  unfold nameResult at h
  split at h
  · cases h
    rfl
  · cases h

/-- The spelling of a token that a piece of a text makes begins with no blank, and has no NUL
character. -/
theorem Reads.spelling {piece rest : List Char} {kind : TokenKind}
    (h : Reads piece rest (.ok kind)) :
  (∃ c others, kind.spelling.toList = c :: others ∧ isBlank c = false)
    ∧ ∀ c ∈ kind.spelling.toList, c ≠ '\x00'
  := by
  rcases h.ok_cases with ⟨entry, hentry, rfl⟩ | ⟨value, hfinite, hnegative, rfl⟩
    | ⟨hname, hpiece, -⟩
  · have hspelling := Keyword.spelling_mem hentry
    obtain ⟨d, others, hlower, hd, -⟩ := Keyword.exists_lower_eq_cons hspelling
    have hfold := Keyword.fold_toList hspelling
    rw [hlower] at hfold
    obtain ⟨c, others, hlist, hc, -⟩ := exists_cons_of_fold_eq hd hfold
    refine ⟨⟨c, others, hlist, hc⟩, ?_⟩
    rintro c hc rfl
    exact (Keyword.bytes_of_mem_lower hspelling (List.mem_map_of_mem hc)).2 rfl
  · obtain ⟨whole, fraction, hnumeral, ⟨c, hhead, hc⟩, -⟩ :=
      Binary64.exists_numeral_text hfinite hnegative
    obtain ⟨others, hlist⟩ := List.head?_eq_some_iff.mp hhead
    refine ⟨⟨c, others, hlist, isBlank_of_isDigit hc⟩, ?_⟩
    rintro c hc rfl
    rcases hnumeral.mem hc with hdigit | hpoint
    · cases hdigit
    · cases hpoint
  · obtain ⟨⟨c, hhead, hc⟩, halphanum⟩ := hpiece
    obtain ⟨others, rfl⟩ := List.head?_eq_some_iff.mp hhead
    rw [eq_variable_of_nameResult hname, TokenKind.spelling, String.toList_ofList]
    refine ⟨⟨c, others, rfl, isBlank_of_isAlpha hc⟩, ?_⟩
    rintro c hc rfl
    cases halphanum _ hc

/-! ### Tokens with spaces between them -/

theorem gap_eq (kinds : List TokenKind) :
  gap kinds = spaced kinds ∨ gap kinds = ' ' :: spaced kinds
  := by
  cases kinds with
  | nil => exact .inl rfl
  | cons kind kinds => exact .inr rfl

theorem head?_gap (kinds : List TokenKind) :
  ∀ c ∈ (gap kinds).head?, c = ' '
  := by
  cases kinds with
  | nil => nofun
  | cons kind kinds =>
    rintro c ⟨⟩
    rfl

theorem fold_gap_cons {piece rest : List Char} {kind : TokenKind} (h : Reads piece rest (.ok kind))
    (kinds : List TokenKind) :
  fold (gap (kind :: kinds)) = ' ' :: fold (kind.spelling.toList ++ gap kinds)
  := by
  obtain ⟨⟨c, others, hlist, hc⟩, -⟩ := h.spelling
  rw [gap, fold_of_isBlank rfl, dropWhile_isBlank_fold, hlist, List.cons_append,
    List.dropWhile_cons_of_neg (by rw [hc]; decide)]

/-- A phrase that is longer than what stands in front of tokens goes on with a space. -/
theorem isPrefix_cases {front phrase : List Char} {kinds : List TokenKind}
    (h : phrase <+: front ++ fold (gap kinds)) :
  phrase <+: front ∨ ∃ tail, phrase = front ++ ' ' :: tail ∧ ' ' :: tail <+: fold (gap kinds)
  := by
  obtain ⟨after, hafter⟩ := h
  rcases List.append_eq_append_iff.mp hafter with ⟨others, rfl, -⟩ | ⟨more, rfl, hmore⟩
  · exact .inl (List.prefix_append _ _)
  · cases more with
    | nil => exact .inl (by rw [List.append_nil])
    | cons c tail =>
      cases kinds with
      | nil => cases hmore
      | cons kind kinds =>
        have hspace := hmore
        rw [gap, fold_of_isBlank rfl] at hspace
        obtain ⟨rfl, -⟩ := List.cons_eq_cons.mp hspace
        exact .inr ⟨tail, rfl, _, hmore.symm⟩

/-- What can be found after the blanks at the front of a text: a name, and what a keyword has after
one of its spaces. -/
def Found (tail text : List Char) : Prop :=
  (∃ c ∈ (text.dropWhile isBlank).head?, c.isAlpha) ∧ tail <+: fold (text.dropWhile isBlank)

/-- A phrase at the front of a name and of the tokens after it is at the front of the name and of
the text that these tokens come from, if that is so for all that comes after a space in it. -/
theorem isPrefix_fold_of_gap {name rest phrase : List Char} {kinds : List TokenKind}
    (hname : IsName name) (hrest : ∀ c ∈ rest.head?, ¬ c.isAlphanum)
    (hfound : ∀ tail, ' ' :: tail <:+ phrase → ' ' :: tail <+: fold (gap kinds) → Found tail rest)
    (h : phrase <+: fold (name ++ gap kinds)) :
  phrase <+: fold (name ++ rest)
  := by
  have hblank : ∀ c ∈ name, isBlank c = false :=
    fun c hc => isBlank_of_isAlphanum (hname.isAlphanum c hc)
  rw [fold_append_of_not_isBlank hblank] at h ⊢
  rcases isPrefix_cases h with hfront | ⟨tail, rfl, htail⟩
  · apply hfront.trans (List.prefix_append _ _)
  · obtain ⟨⟨c, hhead, hc⟩, hprefix⟩ := hfound tail (List.suffix_append _ _) htail
    apply (List.prefix_append_right_inj _).mpr
    -- The name has ended, so the next one cannot follow without a blank.
    cases rest with
    | nil => cases hhead
    | cons d rest =>
      by_cases hd : isBlank d
      · rw [List.dropWhile_cons_of_pos hd, ← dropWhile_isBlank_fold] at hprefix
        rw [fold_of_isBlank hd]
        apply List.cons_prefix_cons.mpr ⟨rfl, hprefix⟩
      · rw [List.dropWhile_cons_of_neg hd] at hhead
        cases hhead
        cases hrest c rfl (by rw [Char.isAlphanum, hc, Bool.true_or])

theorem bodyKinds_cons {piece rest : List Char} {kind : TokenKind} (h : Reads piece rest (.ok kind))
    (span : Span) (tokens : List Token) :
  bodyKinds ({ kind, span } :: tokens) = kind :: bodyKinds tokens
  := by
  apply List.filter_cons_of_pos
  apply bne_iff_ne.mpr h.ne_endOfInput

/-- What a keyword has after one of its spaces is found in a text, if it is found in the tokens of
the text. -/
theorem Scans.found {position : Nat} {text tail : List Char} {tokens : List Token}
    (h : Scans position text (.ok tokens)) (hcontinues : Keyword.Continues tail)
    (htail : ' ' :: tail <+: fold (gap (bodyKinds tokens))) :
  Found tail text
  := by
  induction h using Scans.ok_induction generalizing tail with
  | done position => cases List.prefix_nil.mp htail
  | blank hblank h ih =>
    rw [Found, List.dropWhile_cons_of_pos hblank]
    apply ih hcontinues htail
  | @token position piece rest kind tokens hreads h ih =>
    rw [bodyKinds_cons hreads, fold_gap_cons hreads] at htail
    obtain ⟨-, htail⟩ := List.cons_prefix_cons.mp htail
    rcases hreads.ok_cases with ⟨entry, hentry, rfl⟩ | ⟨value, hfinite, hnegative, rfl⟩
      | ⟨hname, hpiece, hnone, hrest⟩
    · have hspelling := Keyword.spelling_mem hentry
      obtain ⟨hshorter, hlonger⟩ := hcontinues.spec.2 _ hspelling
      rw [Keyword.fold_append hspelling] at htail
      rcases isPrefix_cases htail with hprefix | ⟨more, hmore, -⟩
      · cases hshorter hprefix
      · cases hlonger more hmore
    · obtain ⟨c, hc, halpha⟩ := hcontinues.spec.1
      obtain ⟨-, -, -, ⟨d, hd, hdigit⟩, -⟩ := Binary64.exists_numeral_text hfinite hnegative
      obtain ⟨tail, rfl⟩ := List.head?_eq_some_iff.mp hc
      obtain ⟨others, hlist⟩ := List.head?_eq_some_iff.mp hd
      rw [TokenKind.spelling, hlist, List.cons_append,
        fold_of_not_isBlank (isBlank_of_isDigit hdigit)] at htail
      rw [(List.cons_prefix_cons.mp htail).1, ignoresCase_isAlpha,
        isAlpha_of_isDigit hdigit] at halpha
      cases halpha
    · rw [eq_variable_of_nameResult hname, TokenKind.spelling, String.toList_ofList] at htail
      rw [Found, hreads.dropWhile_append]
      obtain ⟨c, hhead, hc⟩ := hpiece.head
      refine ⟨⟨c, List.mem_head?_append_of_mem_head? hhead, hc⟩, ?_⟩
      apply isPrefix_fold_of_gap hpiece hrest _ htail
      intro more hmore hgap
      apply ih (hcontinues.of_suffix hmore) hgap

/-- A token that a piece of a text makes is made by its spelling as well, before the tokens that the
rest of the text makes. -/
theorem Reads.respelled {position : Nat} {piece rest : List Char} {kind : TokenKind}
    {tokens : List Token} (h : Reads piece rest (.ok kind))
    (hscans : Scans position rest (.ok tokens)) :
  Reads kind.spelling.toList (gap (bodyKinds tokens)) (.ok kind)
  := by
  have hspace := head?_gap (bodyKinds tokens)
  rcases h.ok_cases with ⟨entry, hentry, rfl⟩ | ⟨value, hfinite, hnegative, rfl⟩
    | ⟨hname, hpiece, hnone, hrest⟩
  · have hspelling := Keyword.spelling_mem hentry
    apply Reads.keyword hspelling (Keyword.fold_toList hspelling)
    intro other hother hstarts
    rw [Keyword.Starts, Keyword.fold_append hspelling] at hstarts
    rcases isPrefix_cases hstarts with hprefix | ⟨more, hmore, -⟩
    · exact hprefix
    · cases Keyword.lower_ne_append_space hspelling hother more hmore
  · obtain ⟨whole, fraction, hnumeral, ⟨c, hhead, hdigit⟩, hvalue⟩ :=
      Binary64.exists_numeral_text hfinite hnegative
    have hresult : numberResult whole fraction = .ok (.number value) := by
      rw [numberResult, hvalue, if_pos hfinite]
    rw [← hresult]
    obtain ⟨others, hlist⟩ := List.head?_eq_some_iff.mp hhead
    refine .number ?_ hnumeral ⟨?_, .inr ?_⟩
    · intro entry hentry
      rw [TokenKind.spelling, hlist]
      apply Keyword.not_starts_of_isDigit hentry hdigit
    · intro d hd
      rw [hspace d hd]
      decide
    · intro hpoint
      cases hspace _ hpoint
  · obtain rfl := eq_variable_of_nameResult hname
    rw [TokenKind.spelling, String.toList_ofList, ← hname]
    refine .name ?_ hpiece ?_
    · intro entry hentry hstarts
      apply hnone entry hentry
      apply isPrefix_fold_of_gap hpiece hrest _ hstarts
      intro tail hsuffix
      apply hscans.found ⟨entry, hentry, hsuffix⟩
    · intro d hd
      rw [hspace d hd]
      decide

/-- The tokens of a text are the tokens of the text that spells them. -/
theorem Scans.respelled {position : Nat} {text : List Char} {tokens : List Token}
    (h : Scans position text (.ok tokens)) (position' : Nat) :
  ∃ tokens', Scans position' (spaced (bodyKinds tokens)) (.ok tokens')
    ∧ tokens'.map Token.kind = tokens.map Token.kind
  := by
  induction h using Scans.ok_induction generalizing position' with
  | done position => exact ⟨_, .done position', rfl⟩
  | blank hblank h ih => apply ih
  | @token position piece rest kind tokens hreads h ih =>
    rw [bodyKinds_cons hreads]
    have hgap : ∀ position, ∃ tokens', Scans position (gap (bodyKinds tokens)) (.ok tokens')
        ∧ tokens'.map Token.kind = tokens.map Token.kind := by
      intro position
      rcases gap_eq (bodyKinds tokens) with heq | heq
      · rw [heq]
        apply ih
      · obtain ⟨tokens', hscans, hkinds⟩ := ih (position + ' '.utf8Size)
        rw [heq]
        exact ⟨tokens', .blank rfl hscans, hkinds⟩
    obtain ⟨tokens', hscans, hkinds⟩ := hgap (position' + byteLength kind.spelling.toList)
    exact ⟨_, .token (hreads.respelled h) hscans, congrArg (kind :: ·) hkinds⟩

/-- Tokens that come from a text are spelled without NUL characters. -/
theorem Scans.ne_nul {position : Nat} {text : List Char} {tokens : List Token}
    (h : Scans position text (.ok tokens)) :
  ∀ c ∈ gap (bodyKinds tokens), c ≠ '\x00'
  := by
  induction h using Scans.ok_induction with
  | done position => nofun
  | blank hblank h ih => apply ih
  | @token position piece rest kind tokens hreads h ih =>
    rw [bodyKinds_cons hreads, gap]
    simp only [List.forall_mem_cons, List.forall_mem_append]
    exact ⟨by decide, hreads.spelling.2, ih⟩

/-- The tokens of a source, spelled out with one space between them, are a source that has the same
tokens. -/
theorem scan_respell {source : String} {tokens : List Token} (h : scan source = .ok tokens) :
  ∃ tokens', scan (respell tokens) = .ok tokens'
    ∧ tokens'.map Token.kind = tokens.map Token.kind
  := by
  have hscans := scans_iff.mpr h
  have hnul : ∀ c ∈ spaced (bodyKinds tokens), c ≠ '\x00' :=
    fun c hc => hscans.ne_nul c (List.mem_of_mem_tail hc)
  have hspaced : respell tokens = String.ofList (spaced (bodyKinds tokens)) := by
    rw [respell, ← toList_intercalate, String.ofList_toList]
  obtain ⟨tokens', hscans', hkinds⟩ := hscans.respelled 0
  refine ⟨tokens', ?_, hkinds⟩
  rw [scan, hspaced, sourceText_ofList hnul, scans_iff.mp hscans']

/-- A source with the beginnings of two keywords, and with zeros at both ends of a number between
two keywords. -/
def almostMordor : String := "One does\tnot simply walk in00.50+So it"

theorem scan_respell_almostMordor :
  ∃ tokens tokens', scan almostMordor = .ok tokens
    ∧ respell tokens = "One does not simply walk IN 0.5 ADD So it"
    ∧ scan (respell tokens) = .ok tokens' ∧ tokens'.map Token.kind = tokens.map Token.kind
  := by
  have hrespell : (scan almostMordor).toOption.map respell
      = some "One does not simply walk IN 0.5 ADD So it" := by
    decide +kernel
  cases hscan : scan almostMordor with
  | error error =>
    rw [hscan] at hrespell
    cases hrespell
  | ok tokens =>
    rw [hscan] at hrespell
    obtain ⟨tokens', hscan', hkinds⟩ := scan_respell hscan
    exact ⟨tokens, tokens', rfl, Option.some.inj hrespell, hscan', hkinds⟩

end Token

end StackCompiler
