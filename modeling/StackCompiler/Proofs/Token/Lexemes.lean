import StackCompiler.Proofs.Token.Keywords

/-!
# Pieces of a source

A source is cut into pieces from left to right.  Here is what a piece may be, without regard to how
it is found: the longest keyword, or else a number or a name that what follows does not go on with,
or else a single character that starts nothing.  Every text that does not begin with a blank has one
first piece, and scanning a source is to take one piece after the other and to skip the blanks
between them.
-/

namespace StackCompiler.Token

open Text

/-! ### Numbers -/

/-- A number as a source writes it: digits, at least one, with or without a point among them. -/
structure Numeral (piece whole fraction : List Char) : Prop where
  ne_nil : whole ++ fraction ≠ []
  isDigit : ∀ c ∈ whole ++ fraction, c.isDigit
  eq_or : piece = whole ++ '.' :: fraction ∨ piece = whole ∧ fraction = []

/-- What follows a number does not go on with it. -/
def EndsNumber (piece rest : List Char) : Prop :=
  (∀ c ∈ rest.head?, ¬ c.isDigit) ∧ ('.' ∈ piece ∨ '.' ∉ rest.head?)

/-- A numeral is made of digits and a point. -/
theorem Numeral.mem {piece whole fraction : List Char} (h : Numeral piece whole fraction) {c : Char}
    (hc : c ∈ piece) :
  c.isDigit ∨ c = '.'
  := by
  have hdigit := h.isDigit
  rcases h.eq_or with rfl | ⟨rfl, rfl⟩
  · rcases List.mem_append.mp hc with hc | hc
    · exact .inl (hdigit c (List.mem_append_left _ hc))
    · rcases List.mem_cons.mp hc with rfl | hc
      · exact .inr rfl
      · exact .inl (hdigit c (List.mem_append_right _ hc))
  · exact .inl (hdigit c (List.mem_append_left _ hc))

/-- A numeral is not empty. -/
theorem Numeral.piece_ne_nil {piece whole fraction : List Char} (h : Numeral piece whole fraction) :
  piece ≠ []
  := by
  have hne := h.ne_nil
  rcases h.eq_or with rfl | ⟨rfl, rfl⟩
  · simp
  · rwa [List.append_nil] at hne

/-- No blank is in a numeral. -/
theorem Numeral.isBlank_of_mem {piece whole fraction : List Char} (h : Numeral piece whole fraction)
    {c : Char} (hc : c ∈ piece) :
  isBlank c = false
  := by
  rcases h.mem hc with hdigit | rfl
  · apply isBlank_of_isDigit hdigit
  · rfl

/-- Digits with a point after them are a number, if there is a digit before or after the point. -/
theorem numeral?_point {whole fraction rest : List Char} (hwhole : ∀ c ∈ whole, c.isDigit)
    (hfraction : ∀ c ∈ fraction, c.isDigit) (hrest : ∀ c ∈ rest.head?, ¬ c.isDigit) :
  numeral? (whole ++ '.' :: (fraction ++ rest))
    = if whole ++ fraction = [] then none
      else some (whole, fraction, whole.length + 1 + fraction.length)
  := by
  have hpoint : ∀ c ∈ ('.' :: (fraction ++ rest)).head?, ¬ c.isDigit := by
    rintro c ⟨⟩
    decide
  have htaken := takeWhile_append_of_head? hfraction hrest
  unfold numeral?
  rw [takeWhile_append_of_head? hwhole hpoint]
  cases whole with
  | nil =>
    simp only [List.nil_append, List.length_nil, List.drop_zero, htaken]
    cases fraction with
    | nil => rfl
    | cons d fraction => simp
  | cons d whole => simp [htaken]

/-- Digits without a point after them are a number, if there is a digit. -/
theorem numeral?_whole {whole rest : List Char} (hwhole : ∀ c ∈ whole, c.isDigit)
    (hrest : ∀ c ∈ rest.head?, ¬ c.isDigit) (hpoint : '.' ∉ rest.head?) :
  numeral? (whole ++ rest) = if whole = [] then none else some (whole, [], whole.length)
  := by
  unfold numeral?
  rw [takeWhile_append_of_head? hwhole hrest]
  simp only [List.drop_left]
  split <;> simp_all

/-- A text begins with digits, which may be none, with or without a point after them. -/
theorem digits_cases (text : List Char) :
  ∃ whole rest, (∀ c ∈ whole, c.isDigit) ∧ (∀ c ∈ rest.head?, ¬ c.isDigit)
    ∧ (text = whole ++ rest ∧ '.' ∉ rest.head?
      ∨ ∃ fraction, (∀ c ∈ fraction, c.isDigit) ∧ text = whole ++ '.' :: (fraction ++ rest))
  := by
  obtain ⟨whole, rest, rfl, hwhole, hrest⟩ := exists_span Char.isDigit text
  by_cases hpoint : '.' ∈ rest.head?
  · obtain ⟨rest, rfl⟩ := List.head?_eq_some_iff.mp hpoint
    obtain ⟨fraction, rest, rfl, hfraction, hrest⟩ := exists_span Char.isDigit rest
    exact ⟨whole, rest, hwhole, hrest, .inr ⟨fraction, hfraction, rfl⟩⟩
  · exact ⟨whole, rest, hwhole, hrest, .inl ⟨rfl, hpoint⟩⟩

/-- A number is found at the front of a text, whatever follows that does not go on with it. -/
theorem Numeral.numeral?_append {piece whole fraction rest : List Char}
    (h : Numeral piece whole fraction) (hrest : EndsNumber piece rest) :
  numeral? (piece ++ rest) = some (whole, fraction, piece.length)
  := by
  obtain ⟨hne, hdigits, hpiece⟩ := h
  obtain ⟨hdigit, hpoint⟩ := hrest
  obtain ⟨hwhole, hfraction⟩ := List.forall_mem_append.mp hdigits
  rcases hpiece with rfl | ⟨rfl, rfl⟩
  · rw [List.append_assoc, List.cons_append, numeral?_point hwhole hfraction hdigit, if_neg hne,
      List.length_append, List.length_cons, Nat.add_right_comm, Nat.add_assoc]
  · rw [List.append_nil] at hne
    have hpoint := hpoint.resolve_left fun hmem => by cases hwhole '.' hmem
    rw [numeral?_whole hwhole hdigit hpoint, if_neg hne]

/-- What is taken for a numeral is one, and it ends where it is cut. -/
theorem exists_numeral_of_numeral? {text whole fraction : List Char} {length : Nat}
    (h : numeral? text = some (whole, fraction, length)) :
  ∃ piece rest, text = piece ++ rest ∧ piece.length = length ∧ Numeral piece whole fraction
    ∧ EndsNumber piece rest
  := by
  obtain ⟨digits, rest, hdigits, hrest, ⟨rfl, hpoint⟩ | ⟨places, hplaces, rfl⟩⟩ := digits_cases text
  · rw [numeral?_whole hdigits hrest hpoint] at h
    split at h
    · cases h
    · rename_i hne
      cases h
      use whole, rest, rfl, rfl
      exact ⟨⟨by simpa using hne, by simpa using hdigits, .inr ⟨rfl, rfl⟩⟩, hrest, .inr hpoint⟩
  · rw [numeral?_point hdigits hplaces hrest] at h
    split at h
    · cases h
    · rename_i hne
      cases h
      use whole ++ '.' :: fraction, rest
      rw [List.append_assoc, List.cons_append, List.length_append, List.length_cons]
      use rfl, by omega
      exact ⟨⟨hne, List.forall_mem_append.mpr ⟨hdigits, hplaces⟩, .inl rfl⟩, hrest, .inl (by simp)⟩

/-! ### Names -/

/-- A name as a source writes it: a letter followed by letters and digits. -/
structure IsName (name : List Char) : Prop where
  head : ∃ c ∈ name.head?, c.isAlpha
  isAlphanum : ∀ c ∈ name, c.isAlphanum

/-- A name is taken as far as its characters go. -/
theorem name?_eq_some_iff {text name : List Char} :
  name? text = some name ↔ IsName name ∧ ∃ rest, text = name ++ rest
    ∧ ∀ c ∈ rest.head?, ¬ c.isAlphanum
  := by
  constructor
  · intro h
    cases text with
    | nil => cases h
    | cons c text =>
      rw [name?] at h
      split at h
      · rename_i hc
        obtain ⟨taken, rest, rfl, htaken, hrest⟩ := exists_span Char.isAlphanum text
        rw [takeWhile_append_of_head? htaken hrest] at h
        cases h
        have hcons : ∀ d ∈ c :: taken, d.isAlphanum :=
          List.forall_mem_cons.mpr ⟨by rw [Char.isAlphanum, hc, Bool.true_or], htaken⟩
        exact ⟨⟨⟨c, rfl, hc⟩, hcons⟩, rest, rfl, hrest⟩
      · cases h
  · rintro ⟨⟨⟨c, hhead, hc⟩, hname⟩, rest, rfl, hrest⟩
    obtain ⟨others, rfl⟩ := List.head?_eq_some_iff.mp hhead
    rw [List.cons_append, name?, if_pos hc,
      takeWhile_append_of_head? (List.forall_mem_cons.mp hname).2 hrest]

/-! ### Lexemes -/

/-- The token that the digits of a number make, or the fault that they are. -/
def numberResult (whole fraction : List Char) : Except ScanFault TokenKind :=
  let value := Binary64.ofDigits false whole fraction 0
  if value.isFinite then .ok (.number value) else .error .malformedNumber

/-- The token that a name makes, or the fault that it is. -/
def nameResult (name : List Char) : Except ScanFault TokenKind :=
  if name.length ≤ maxNameLength then .ok (.variable (String.ofList name))
  else .error (.nameTooLong name.length)

/-- No keyword stands at the front of a text. -/
def NoKeyword (text : List Char) : Prop :=
  ∀ entry ∈ Keyword.all, ¬ Keyword.Starts entry.1 text

/-- The first piece of a text makes a token or is a fault, with the rest of the text after it. -/
inductive Reads : (piece rest : List Char) → Except ScanFault TokenKind → Prop where
  | keyword {piece rest : List Char} {entry : String × TokenKind} (hentry : entry ∈ Keyword.all)
      (hpiece : fold piece = Keyword.lower entry.1)
      (hlongest : ∀ other ∈ Keyword.all, Keyword.Starts other.1 (piece ++ rest) →
        Keyword.lower other.1 <+: Keyword.lower entry.1) :
      Reads piece rest (.ok entry.2)
  | number {piece rest whole fraction : List Char} (hnone : NoKeyword (piece ++ rest))
      (hpiece : Numeral piece whole fraction) (hrest : EndsNumber piece rest) :
      Reads piece rest (numberResult whole fraction)
  | name {piece rest : List Char} (hnone : NoKeyword (piece ++ rest)) (hpiece : IsName piece)
      (hrest : ∀ c ∈ rest.head?, ¬ c.isAlphanum) :
      Reads piece rest (nameResult piece)
  | other {c : Char} {rest : List Char} (hblank : isBlank c = false) (hnone : NoKeyword (c :: rest))
      (hnumeral : numeral? (c :: rest) = none) (hname : name? (c :: rest) = none) :
      Reads [c] rest (.error (.unexpectedCharacter c))

/-- No numeral begins like a name. -/
theorem numeral?_of_isName {name rest : List Char} (h : IsName name) :
  numeral? (name ++ rest) = none
  := by
  obtain ⟨⟨c, hhead, hc⟩, -⟩ := h
  obtain ⟨others, rfl⟩ := List.head?_eq_some_iff.mp hhead
  have hdigit : ∀ d ∈ (c :: others ++ rest).head?, ¬ d.isDigit := by
    rintro d ⟨⟩
    rw [isDigit_of_isAlpha hc]
    decide
  have hpoint : '.' ∉ (c :: others ++ rest).head? := by
    rintro ⟨⟩
    cases hc
  apply @numeral?_whole [] _ (by nofun) hdigit hpoint

/-- The scanner takes the piece that is read. -/
theorem lexeme_of_reads {piece rest text : List Char} {result : Except ScanFault TokenKind}
    {c : Char} (h : Reads piece rest result) (htext : piece ++ rest = c :: text) :
  lexeme c text = (result, piece.length)
  := by
  unfold lexeme
  rw [← htext]
  cases h with
  | @keyword _ _ entry hentry hpiece hlongest =>
    have hlength := Keyword.length?_of_fold_eq (Keyword.isPhrase_of_mem hentry) hpiece rest
    have hfound := Keyword.longest?_eq_some_iff.mpr ⟨entry.1, hentry, hlength, hlongest⟩
    rw [hfound]
  | number hnone hpiece hrest =>
    rw [Keyword.longest?_eq_none_iff.mpr hnone, hpiece.numeral?_append hrest]
    rfl
  | name hnone hpiece hrest =>
    have hname := name?_eq_some_iff.mpr ⟨hpiece, rest, rfl, hrest⟩
    rw [Keyword.longest?_eq_none_iff.mpr hnone, numeral?_of_isName hpiece, hname]
    rfl
  | other hblank hnone hnumeral hname =>
    obtain ⟨rfl, rfl⟩ := List.cons_eq_cons.mp htext
    rw [List.singleton_append, Keyword.longest?_eq_none_iff.mpr hnone, hnumeral, hname]
    rfl

/-- Every text that does not begin with a blank has a first piece. -/
theorem exists_reads {c : Char} (hblank : isBlank c = false) (text : List Char) :
  ∃ piece rest result, c :: text = piece ++ rest ∧ Reads piece rest result
  := by
  cases hkeyword : Keyword.longest? (c :: text) with
  | some found =>
    obtain ⟨keyword, hentry, hlength, hlongest⟩ := Keyword.exists_of_longest? hkeyword
    have hphrase := Keyword.isPhrase_of_mem hentry
    have htaken := Keyword.fold_of_length? hphrase hlength
    have hsplit := List.take_append_drop found.2 (c :: text)
    rw [← hsplit] at hlongest
    exact ⟨_, _, _, hsplit.symm, .keyword hentry htaken hlongest⟩
  | none =>
    have hnone : NoKeyword (c :: text) := Keyword.longest?_eq_none_iff.mp hkeyword
    cases hnumeral : numeral? (c :: text) with
    | some found =>
      obtain ⟨piece, rest, hsplit, -, hpiece, hrest⟩ := exists_numeral_of_numeral? hnumeral
      rw [hsplit] at hnone ⊢
      exact ⟨piece, rest, _, rfl, .number hnone hpiece hrest⟩
    | none =>
      cases hname : name? (c :: text) with
      | some name =>
        obtain ⟨hpiece, rest, hsplit, hrest⟩ := name?_eq_some_iff.mp hname
        rw [hsplit] at hnone ⊢
        exact ⟨name, rest, _, rfl, .name hnone hpiece hrest⟩
      | none => exact ⟨[c], text, _, rfl, .other hblank hnone hnumeral hname⟩

/-- The first piece of a text is not empty and does not begin with a blank. -/
theorem Reads.exists_cons {piece rest : List Char} {result : Except ScanFault TokenKind}
    (h : Reads piece rest result) :
  ∃ c others, piece = c :: others ∧ isBlank c = false
  := by
  cases h with
  | keyword hentry hpiece hlongest =>
    obtain ⟨d, others, hlower, hd, -⟩ := Keyword.exists_lower_eq_cons hentry
    rw [hlower] at hpiece
    obtain ⟨c, others, rfl, hc, -⟩ := exists_cons_of_fold_eq hd hpiece
    exact ⟨c, others, rfl, hc⟩
  | number hnone hpiece hrest =>
    obtain ⟨c, others, rfl⟩ := List.exists_cons_of_ne_nil hpiece.piece_ne_nil
    exact ⟨c, others, rfl, hpiece.isBlank_of_mem List.mem_cons_self⟩
  | name hnone hpiece hrest =>
    obtain ⟨c, hhead, hc⟩ := hpiece.head
    obtain ⟨others, rfl⟩ := List.head?_eq_some_iff.mp hhead
    exact ⟨c, others, rfl, isBlank_of_isAlpha hc⟩
  | other hblank hnone hnumeral hname => exact ⟨_, [], rfl, hblank⟩

/-- A piece begins with no blank. -/
theorem Reads.dropWhile_append {piece rest : List Char} {result : Except ScanFault TokenKind}
    (h : Reads piece rest result) :
  (piece ++ rest).dropWhile isBlank = piece ++ rest
  := by
  obtain ⟨c, others, rfl, hblank⟩ := h.exists_cons
  apply List.dropWhile_cons_of_neg
  rw [hblank]
  decide

/-- No piece is read as the end of the input. -/
theorem Reads.ne_endOfInput {piece rest : List Char} {kind : TokenKind}
    (h : Reads piece rest (.ok kind)) :
  kind ≠ .endOfInput
  := by
  obtain ⟨c, others, rfl, -⟩ := h.exists_cons
  have hlexeme := lexeme_of_reads h rfl
  have hscanned := isScanned_of_lexeme (congrArg Prod.fst hlexeme)
  rintro rfl
  cases hscanned

/-! ### Scans -/

/-- A scan of a text, piece by piece. -/
inductive Scans : (position : Nat) → (text : List Char) → Except ScanError (List Token) → Prop where
  | done (position : Nat) :
      Scans position [] (.ok [{ kind := .endOfInput, span := ⟨position, position⟩ }])
  | blank {position : Nat} {c : Char} {text : List Char} {result : Except ScanError (List Token)}
      (hblank : isBlank c) (h : Scans (position + c.utf8Size) text result) :
      Scans position (c :: text) result
  | token {position : Nat} {piece rest : List Char} {kind : TokenKind}
      {result : Except ScanError (List Token)} (hreads : Reads piece rest (.ok kind))
      (h : Scans (position + byteLength piece) rest result) :
      Scans position (piece ++ rest)
        (result.map ({ kind, span := .ofLength position (byteLength piece) } :: ·))
  | fault {position : Nat} {piece rest : List Char} {fault : ScanFault}
      (hreads : Reads piece rest (.error fault)) :
      Scans position (piece ++ rest)
        (.error { fault, span := .ofLength position (byteLength piece) })

/-- Blanks are skipped. -/
theorem scanFrom_of_isBlank {c : Char} (h : isBlank c) (position : Nat) (text : List Char) :
  scanFrom position (c :: text) = scanFrom (position + c.utf8Size) text
  := by
  rw [scanFrom, if_pos h]

/-- The scan goes on after the first piece, unless that piece is a fault. -/
theorem scanFrom_of_reads {piece rest : List Char} {result : Except ScanFault TokenKind}
    (h : Reads piece rest result) (position : Nat) :
  scanFrom position (piece ++ rest)
    = (result.mapError fun fault => { fault, span := .ofLength position (byteLength piece) }).bind
        fun kind => (scanFrom (position + byteLength piece) rest).map
          ({ kind, span := .ofLength position (byteLength piece) } :: ·)
  := by
  obtain ⟨c, others, rfl, hblank⟩ := h.exists_cons
  have hlexeme : lexeme c (others ++ rest) = (result, (c :: others).length) := lexeme_of_reads h rfl
  have htake : (c :: (others ++ rest)).take (c :: others).length = c :: others := List.take_left
  rw [List.cons_append, scanFrom, if_neg (by simp [hblank]), hlexeme]
  dsimp only
  rw [htake, List.length_cons, Nat.add_sub_cancel, List.drop_left]
  cases result with
  | error fault => rfl
  | ok kind =>
    change (scanFrom (position + byteLength (c :: others)) rest).bind _
      = (scanFrom (position + byteLength (c :: others)) rest).map _
    cases scanFrom (position + byteLength (c :: others)) rest <;> rfl

/-- The scanner does what the rules of scanning say. -/
theorem scanFrom_of_scans {position : Nat} {text : List Char}
    {result : Except ScanError (List Token)} (h : Scans position text result) :
  scanFrom position text = result
  := by
  induction h with
  | done position => rw [scanFrom]
  | blank hblank h ih => rw [scanFrom_of_isBlank hblank, ih]
  | token hreads h ih =>
    rw [scanFrom_of_reads hreads, ih]
    rfl
  | fault hreads =>
    rw [scanFrom_of_reads hreads]
    rfl

/-- The rules of scanning say something for every text. -/
theorem exists_scans (position : Nat) (text : List Char) :
  ∃ result, Scans position text result
  := by
  induction hlength : text.length using Nat.strong_induction_on generalizing position text with
  | _ length ih =>
    cases text with
    | nil => exact ⟨_, .done position⟩
    | cons c text =>
      subst hlength
      by_cases hblank : isBlank c
      · obtain ⟨result, hresult⟩ := ih _ (Nat.lt_succ_self _) (position + c.utf8Size) text rfl
        exact ⟨result, .blank hblank hresult⟩
      · rw [Bool.not_eq_true] at hblank
        obtain ⟨piece, rest, result, hsplit, hreads⟩ := exists_reads hblank text
        obtain ⟨d, others, rfl, -⟩ := hreads.exists_cons
        rw [hsplit] at ih ⊢
        cases result with
        | error fault => exact ⟨_, .fault hreads⟩
        | ok kind =>
          have hlt : rest.length < (d :: others ++ rest).length := by
            rw [List.length_append, List.length_cons]
            omega
          obtain ⟨result, hresult⟩ := ih _ hlt (position + byteLength (d :: others)) rest rfl
          exact ⟨_, .token hreads hresult⟩

/-- What the program does is the scan, piece by piece. -/
theorem scans_iff {position : Nat} {text : List Char} {result : Except ScanError (List Token)} :
  Scans position text result ↔ scanFrom position text = result
  := by
  constructor
  · apply scanFrom_of_scans
  · rintro rfl
    obtain ⟨result, hresult⟩ := exists_scans position text
    rwa [scanFrom_of_scans hresult]

/-- A text without the null character is scanned as a whole. -/
theorem sourceText_ofList {text : List Char} (h : ∀ c ∈ text, c ≠ '\x00') :
  sourceText (String.ofList text) = text
  := by
  rw [sourceText, String.toList_ofList]
  apply List.takeWhile_eq_self_iff.mpr
  intro c hc
  simpa using h c hc

/-- Scans that succeed, with what holds of the rest of a text carried over to the text. -/
theorem Scans.ok_induction
    {motive : ∀ position text tokens, Scans position text (.ok tokens) → Prop}
    (done : ∀ position, motive position [] _ (.done position))
    (blank : ∀ {position c text tokens} (hblank : isBlank c)
      (h : Scans (position + c.utf8Size) text (.ok tokens)),
      motive _ text tokens h → motive position (c :: text) tokens (.blank hblank h))
    (token : ∀ {position piece rest kind tokens} (hreads : Reads piece rest (.ok kind))
      (h : Scans (position + byteLength piece) rest (.ok tokens)),
      motive _ rest tokens h → motive position (piece ++ rest) _ (.token hreads h))
    {position : Nat} {text : List Char} {tokens : List Token}
    (h : Scans position text (.ok tokens)) :
  motive position text tokens h
  := by
  have hmotive : ∀ {position text result} (h : Scans position text result) {tokens}
      (hresult : result = .ok tokens), motive position text tokens (hresult ▸ h) := by
    intro position text result h
    induction h with
    | done position =>
      rintro tokens ⟨⟩
      apply done
    | blank hblank h ih =>
      rintro tokens rfl
      apply blank hblank h (ih rfl)
    | @token position piece rest kind result hreads h ih =>
      rintro tokens hresult
      cases result with
      | error error => cases hresult
      | ok tokens =>
        cases hresult
        apply token hreads h (ih rfl)
    | fault hreads => nofun
  apply hmotive h rfl

end StackCompiler.Token
