import StackCompiler.Proofs.Token.Lexemes

/-!
# Layout and case do not matter

A source may be laid out anew, with other blanks wherever it has blanks, and its letters may be
written in the other case.  The folded text stays the same, and what the first piece of a text is
can be seen in the folded text.  So the scan of the new source goes piece by piece like that of the
old one: it makes the same tokens, apart from the case of names, or it ends with the same fault.
-/

namespace StackCompiler

namespace Text

/-- Two texts differ only in layout and case: where one has blanks in a row the other has blanks in
a row, and elsewhere they have the same characters, apart from the case of letters. -/
inductive Relaid : List Char → List Char → Prop where
  | done : Relaid [] []
  | character {c d : Char} {text text' : List Char} (hblank : isBlank c = false)
      (hcase : c.toLower = d.toLower) (h : Relaid text text') :
      Relaid (c :: text) (d :: text')
  | blanks {run run' text text' : List Char} (hrun : run ≠ []) (hrun' : run' ≠ [])
      (hblank : ∀ c ∈ run, isBlank c) (hblank' : ∀ c ∈ run', isBlank c) (h : Relaid text text') :
      Relaid (run ++ text) (run' ++ text')

/-- Texts that differ in blanks and case are folded alike. -/
theorem Relaid.fold_eq {text text' : List Char} (h : Relaid text text') :
  fold text = fold text'
  := by
  induction h with
  | done => rfl
  | @character c d text text' hblank hcase h ih =>
    have hd : isBlank d = false := by
      rw [← ignoresCase_isBlank, ← hcase, ignoresCase_isBlank, hblank]
    rw [fold_of_not_isBlank hblank, fold_of_not_isBlank hd, hcase, ih]
  | blanks hrun hrun' hblank hblank' h ih =>
    rw [fold_blanks_append hrun hblank, fold_blanks_append hrun' hblank', ih]

/-- Two texts differ only in layout and case if they are folded to the same text. -/
theorem relaid_of_fold_eq {text text' : List Char} (h : fold text = fold text') :
  Relaid text text'
  := by
  induction hlength : text.length using Nat.strong_induction_on generalizing text text' with
  | _ length ih =>
    subst hlength
    cases text with
    | nil =>
      have hnil : text' = [] := by
        by_contra hne
        apply fold_ne_nil hne h.symm
      rw [hnil]
      exact .done
    | cons c text =>
      by_cases hc : isBlank c
      · rw [fold_of_isBlank hc, dropWhile_isBlank_fold] at h
        obtain ⟨d, others, rfl, hd⟩ := exists_blank_of_fold_eq h.symm
        rw [fold_of_isBlank hd, dropWhile_isBlank_fold] at h
        have hlt : (text.dropWhile isBlank).length < (c :: text).length :=
          Nat.lt_succ_of_le (List.length_dropWhile_le _ _)
        have hrest := ih _ hlt (List.cons_eq_cons.mp h).2 rfl
        have hrun := Relaid.blanks (List.cons_ne_nil c _) (List.cons_ne_nil d _)
          (forall_mem_cons_takeWhile hc text) (forall_mem_cons_takeWhile hd others) hrest
        rwa [List.cons_append, List.cons_append, List.takeWhile_append_dropWhile,
          List.takeWhile_append_dropWhile] at hrun
      · rw [Bool.not_eq_true] at hc
        have hlower : isBlank c.toLower = false := by rw [ignoresCase_isBlank, hc]
        rw [fold_of_not_isBlank hc] at h
        obtain ⟨d, others, rfl, -, hd, hothers⟩ := exists_cons_of_fold_eq hlower h.symm
        exact .character hc hd.symm (ih text.length (Nat.lt_succ_self _) hothers.symm rfl)

/-- Texts differ in blanks and case only if and only if they are folded alike. -/
theorem relaid_iff {text text' : List Char} :
  Relaid text text' ↔ fold text = fold text'
  := ⟨Relaid.fold_eq, relaid_of_fold_eq⟩

instance (text text' : List Char) : Decidable (Relaid text text') :=
  decidable_of_iff' _ relaid_iff

/-- The parts that count of two sources differ only in layout and case, if the sources do. -/
theorem Relaid.takeWhile_ne_nul {text text' : List Char} (h : Relaid text text') :
  Relaid (text.takeWhile (· != '\x00')) (text'.takeWhile (· != '\x00'))
  := by
  have hnul : ∀ c, isBlank c → c != '\x00' := by
    intro c hc
    apply bne_iff_ne.mpr
    rintro rfl
    cases hc
  induction h with
  | done => exact .done
  | @character c d text text' hblank hcase h ih =>
    by_cases hc : c = '\x00'
    · have hd : d = '\x00' := by
        rw [hc] at hcase
        apply eq_of_toLower_eq rfl hcase.symm
      rw [hc, hd]
      exact .done
    · have hd : d ≠ '\x00' := by
        rintro rfl
        apply hc (eq_of_toLower_eq rfl hcase)
      simp only [List.takeWhile_cons, bne_iff_ne.mpr hc, bne_iff_ne.mpr hd, if_true]
      exact .character hblank hcase ih
  | blanks hrun hrun' hblank hblank' h ih =>
    rw [List.takeWhile_append_of_pos fun c hc => hnul c (hblank c hc),
      List.takeWhile_append_of_pos fun c hc => hnul c (hblank' c hc)]
    exact .blanks hrun hrun' hblank hblank' ih

/-- A word at the front of a text is at the front of every text that is folded to the same, apart
from case. -/
theorem exists_word_of_fold_eq {text word rest : List Char} (hword : ∀ c ∈ word, isBlank c = false)
    (h : fold text = fold (word ++ rest)) :
  ∃ word' rest', text = word' ++ rest' ∧ word'.map Char.toLower = word.map Char.toLower
    ∧ fold rest' = fold rest
  := by
  have hlower : ∀ c ∈ word.map Char.toLower, isBlank c = false := by
    rw [List.forall_mem_map]
    intro c hc
    rw [ignoresCase_isBlank, hword c hc]
  have hends : EndsInWord (word.map Char.toLower) :=
    fun c hc => hlower c (List.mem_of_mem_getLast? hc)
  rw [fold_append_of_not_isBlank hword] at h
  obtain ⟨word', rest', rfl, hword', hrest⟩ := exists_append_of_fold_eq hends h
  exact ⟨word', rest', rfl, map_toLower_of_fold_eq hlower hword', hrest⟩

end Text

open Text

/-- A token without regard to the case of names. -/
def TokenKind.foldCase : TokenKind → TokenKind
  | .variable name => .variable (String.ofList (name.toList.map Char.toLower))
  | .function name => .function (String.ofList (name.toList.map Char.toLower))
  | kind => kind

namespace Token

/-! ### Pieces -/

/-- A numeral is found in every text that is folded alike. -/
theorem numeral_of_fold_eq {text piece rest whole fraction : List Char}
    (hpiece : Numeral piece whole fraction) (hrest : EndsNumber piece rest)
    (h : fold text = fold (piece ++ rest)) :
  ∃ rest', text = piece ++ rest' ∧ fold rest' = fold rest ∧ EndsNumber piece rest'
  := by
  have halpha : ∀ c ∈ piece, c.isAlpha = false := by
    intro c hc
    rcases hpiece.mem hc with hdigit | rfl
    · apply isAlpha_of_isDigit hdigit
    · rfl
  have hpointCase : IgnoresCase (· == '.') := by
    apply ignoresCase_of_isAlpha
    intro c hc
    apply beq_false_of_ne
    rintro rfl
    cases hc
  obtain ⟨piece', rest', rfl, hlower, hfold⟩ :=
    exists_word_of_fold_eq (fun c => hpiece.isBlank_of_mem) h
  obtain rfl := eq_of_map_toLower_eq halpha hlower
  obtain ⟨hdigit, hpoint⟩ := hrest
  refine ⟨rest', rfl, hfold, ?_, ?_⟩
  · apply forall_head?_of_fold_eq ignoresCase_isDigit (fun c => isBlank_of_isDigit) hfold hdigit
  · apply hpoint.imp_right
    intro hpoint hhead
    apply forall_head?_of_fold_eq hpointCase _ hfold _ '.' hhead rfl
    · intro c hc
      rw [eq_of_beq hc]
      rfl
    · intro c hc hbeq
      rw [eq_of_beq hbeq] at hc
      apply hpoint hc

/-- A name is one in any case. -/
theorem IsName.of_map_toLower_eq {name name' : List Char} (h : IsName name)
    (hlower : name'.map Char.toLower = name.map Char.toLower) :
  IsName name'
  := by
  obtain ⟨⟨c, hhead, hc⟩, halphanum⟩ := h
  constructor
  · obtain ⟨others, rfl⟩ := List.head?_eq_some_iff.mp hhead
    obtain ⟨d, others', rfl, hd, -⟩ := List.map_eq_cons_iff.mp hlower
    use d, rfl
    rwa [← ignoresCase_isAlpha, hd, ignoresCase_isAlpha]
  · intro d hd
    have hmem : d.toLower ∈ name.map Char.toLower := by
      rw [← hlower]
      apply List.mem_map_of_mem hd
    obtain ⟨e, he, heq⟩ := List.mem_map.mp hmem
    rw [← ignoresCase_isAlphanum, ← heq, ignoresCase_isAlphanum]
    apply halphanum e he

/-- A name is found in every text that is folded alike, up to its case. -/
theorem isName_of_fold_eq {text piece rest : List Char} (hpiece : IsName piece)
    (hrest : ∀ c ∈ rest.head?, ¬ c.isAlphanum) (h : fold text = fold (piece ++ rest)) :
  ∃ piece' rest', text = piece' ++ rest' ∧ piece'.map Char.toLower = piece.map Char.toLower
    ∧ fold rest' = fold rest ∧ IsName piece' ∧ ∀ c ∈ rest'.head?, ¬ c.isAlphanum
  := by
  obtain ⟨piece', rest', rfl, hlower, hfold⟩ :=
    exists_word_of_fold_eq (fun c hc => isBlank_of_isAlphanum (hpiece.isAlphanum c hc)) h
  refine ⟨piece', rest', rfl, hlower, hfold, hpiece.of_map_toLower_eq hlower, ?_⟩
  apply forall_head?_of_fold_eq ignoresCase_isAlphanum (fun c => isBlank_of_isAlphanum) hfold hrest

/-- Texts that are folded alike begin with the same keywords. -/
theorem NoKeyword.of_fold_eq {text text' : List Char} (h : NoKeyword text)
    (hfold : fold text' = fold text) :
  NoKeyword text'
  := by
  intro entry hentry hstarts
  rw [Keyword.Starts, hfold] at hstarts
  apply h entry hentry hstarts

/-- What a name is read as does not depend on its case, apart from the name. -/
theorem map_foldCase_nameResult {name name' : List Char}
    (h : name'.map Char.toLower = name.map Char.toLower) :
  (nameResult name').map TokenKind.foldCase = (nameResult name).map TokenKind.foldCase
  := by
  have hlength : name'.length = name.length := by
    rw [← @List.length_map _ _ name' Char.toLower, h, List.length_map]
  unfold nameResult
  rw [hlength]
  split
  · simp only [Except.map, TokenKind.foldCase, String.toList_ofList, h]
  · rfl

/-- The first piece of a text can be seen in the folded text. -/
theorem Reads.of_fold_eq {text piece rest : List Char} {result : Except ScanFault TokenKind}
    (h : Reads piece rest result) (hfold : fold text = fold (piece ++ rest)) :
  ∃ piece' rest' result', text = piece' ++ rest' ∧ fold rest' = fold rest
    ∧ Reads piece' rest' result'
    ∧ result'.map TokenKind.foldCase = result.map TokenKind.foldCase
  := by
  cases h with
  | @keyword _ _ entry hentry hpiece hlongest =>
    have hends := Keyword.endsInWord_lower hentry
    have hsplit := hfold
    rw [← hpiece] at hends
    rw [fold_append hends] at hsplit
    obtain ⟨piece', rest', rfl, hpiece', hrest⟩ := exists_append_of_fold_eq hends hsplit
    refine ⟨piece', rest', _, rfl, hrest, .keyword hentry (hpiece'.trans hpiece) ?_, rfl⟩
    intro other hother hstarts
    rw [Keyword.Starts, hfold] at hstarts
    apply hlongest other hother hstarts
  | number hnone hpiece hrest =>
    obtain ⟨rest', rfl, hfold', hrest'⟩ := numeral_of_fold_eq hpiece hrest hfold
    exact ⟨piece, rest', _, rfl, hfold', .number (hnone.of_fold_eq hfold) hpiece hrest', rfl⟩
  | name hnone hpiece hrest =>
    obtain ⟨piece', rest', rfl, hlower, hfold', hpiece', hrest'⟩ :=
      isName_of_fold_eq hpiece hrest hfold
    refine ⟨piece', rest', _, rfl, hfold', .name (hnone.of_fold_eq hfold) hpiece' hrest', ?_⟩
    apply map_foldCase_nameResult hlower
  | @other c _ hblank hnone hnumeral hname =>
    have hlower : isBlank c.toLower = false := by rw [ignoresCase_isBlank, hblank]
    have hcons := hfold
    rw [List.singleton_append, fold_of_not_isBlank hblank] at hcons
    obtain ⟨d, rest', rfl, hd, hcase, hrest⟩ := exists_cons_of_fold_eq hlower hcons
    have halpha : c.isAlpha = false := by
      rw [name?] at hname
      simpa using hname
    obtain rfl := eq_of_toLower_eq halpha hcase
    refine ⟨[d], rest', _, rfl, hrest, .other hblank (hnone.of_fold_eq hfold) ?_ ?_, rfl⟩
    · by_contra hsome
      obtain ⟨found, hfound⟩ := Option.ne_none_iff_exists'.mp hsome
      obtain ⟨piece, rest, htext, -, hpiece, hends⟩ := exists_numeral_of_numeral? hfound
      rw [htext] at hfold
      obtain ⟨others, heq, -, hends'⟩ := numeral_of_fold_eq hpiece hends hfold.symm
      rw [List.singleton_append] at heq
      rw [heq, hpiece.numeral?_append hends'] at hnumeral
      cases hnumeral
    · rw [name?, halpha]
      rfl

/-! ### Scans -/

/-- What a scan shows apart from places and the case of names. -/
def foldScan (result : Except ScanError (List Token)) : Except ScanFault (List TokenKind) :=
  (result.map fun tokens => tokens.map fun token => token.kind.foldCase).mapError ScanError.fault

/-- The kind of the first piece comes before the kinds of the rest. -/
theorem foldScan_of_reads {piece rest : List Char} {result : Except ScanFault TokenKind}
    (h : Reads piece rest result) (position : Nat) :
  foldScan (scanFrom position (piece ++ rest))
    = (result.map TokenKind.foldCase).bind fun kind =>
        (foldScan (scanFrom (position + byteLength piece) rest)).map (kind :: ·)
  := by
  rw [scanFrom_of_reads h]
  cases result with
  | error fault => rfl
  | ok kind => cases scanFrom (position + byteLength piece) rest <;> rfl

/-- Blanks at the front only move the rest. -/
theorem exists_scanFrom_dropWhile (position : Nat) (text : List Char) :
  ∃ position', scanFrom position text = scanFrom position' (text.dropWhile isBlank)
  := by
  induction text generalizing position with
  | nil => exact ⟨position, rfl⟩
  | cons c text ih =>
    by_cases hc : isBlank c
    · rw [scanFrom_of_isBlank hc, List.dropWhile_cons_of_pos hc]
      apply ih
    · rw [List.dropWhile_cons_of_neg hc]
      exact ⟨position, rfl⟩

/-- Texts that are folded to the same, apart from blanks at the front, are scanned alike. -/
theorem Scans.of_fold_eq {position : Nat} {text text' : List Char}
    {result : Except ScanError (List Token)} (h : Scans position text result) (position' : Nat)
    (hfold : fold (text'.dropWhile isBlank) = fold (text.dropWhile isBlank)) :
  foldScan (scanFrom position' text') = foldScan result
  := by
  induction h generalizing text' position' with
  | done position =>
    have hnil : text'.dropWhile isBlank = [] := by
      by_contra hne
      apply fold_ne_nil hne hfold
    obtain ⟨stop, hstop⟩ := exists_scanFrom_dropWhile position' text'
    rw [hstop, hnil, scanFrom]
    rfl
  | blank hblank h ih =>
    rw [List.dropWhile_cons_of_pos hblank] at hfold
    apply ih position' hfold
  | @token position piece rest kind result hreads h ih =>
    rw [hreads.dropWhile_append] at hfold
    obtain ⟨start, hstart⟩ := exists_scanFrom_dropWhile position' text'
    obtain ⟨piece', rest', result', htext, hrest, hreads', hresult⟩ := hreads.of_fold_eq hfold
    have hlater : fold (rest'.dropWhile isBlank) = fold (rest.dropWhile isBlank) := by
      rw [← dropWhile_isBlank_fold, hrest, dropWhile_isBlank_fold]
    rw [hstart, htext, foldScan_of_reads hreads', hresult, ih _ hlater]
    cases result <;> rfl
  | fault hreads =>
    rw [hreads.dropWhile_append] at hfold
    obtain ⟨start, hstart⟩ := exists_scanFrom_dropWhile position' text'
    obtain ⟨piece', rest', result', htext, -, hreads', hresult⟩ := hreads.of_fold_eq hfold
    rw [hstart, htext, foldScan_of_reads hreads', hresult]
    rfl

/-- Sources that differ only in layout and case have the same tokens, apart from the case of names,
or the same fault. -/
theorem scan_of_relaid {source source' : String} (h : Relaid source.toList source'.toList) :
  (∃ tokens tokens', scan source = .ok tokens ∧ scan source' = .ok tokens'
      ∧ tokens.map (fun token => token.kind.foldCase)
        = tokens'.map (fun token => token.kind.foldCase))
    ∨ ∃ error error', scan source = .error error ∧ scan source' = .error error'
      ∧ error.fault = error'.fault
  := by
  have hfold := h.takeWhile_ne_nul.fold_eq
  have hdrop : fold ((sourceText source').dropWhile isBlank)
      = fold ((sourceText source).dropWhile isBlank) := by
    rw [← dropWhile_isBlank_fold, ← dropWhile_isBlank_fold]
    apply congrArg (List.dropWhile isBlank) hfold.symm
  have hscan : foldScan (scan source') = foldScan (scan source) :=
    (scans_iff.mpr rfl).of_fold_eq 0 hdrop
  cases hsource : scan source with
  | ok tokens =>
    cases hsource' : scan source' with
    | ok tokens' =>
      rw [hsource, hsource'] at hscan
      exact .inl ⟨tokens, tokens', rfl, rfl, (Except.ok.inj hscan).symm⟩
    | error error' =>
      rw [hsource, hsource'] at hscan
      cases hscan
  | error error =>
    cases hsource' : scan source' with
    | ok tokens' =>
      rw [hsource, hsource'] at hscan
      cases hscan
    | error error' =>
      rw [hsource, hsource'] at hscan
      exact .inr ⟨error, error', rfl, rfl, (Except.error.inj hscan).symm⟩

/-- An assignment and a fault after it, each in two layouts. -/
theorem scan_of_relaid_assignment :
  (∃ tokens tokens', scan "Give him x1  A\tpony So it begins" = .ok tokens
      ∧ scan "GIVE\n HIM X1 a pony so\r\nIT begins" = .ok tokens'
      ∧ tokens.map (fun token => token.kind.foldCase)
        = tokens'.map (fun token => token.kind.foldCase))
    ∧ ∃ error error', scan "Give  him x1\t?" = .error error
      ∧ scan "give him X1 ?" = .error error' ∧ error.fault = error'.fault
  := by
  constructor
  · have hok : (scan "Give him x1  A\tpony So it begins").isOk := by decide +kernel
    apply (scan_of_relaid (by decide +kernel)).resolve_right
    rintro ⟨error, error', herror, -⟩
    rw [herror] at hok
    cases hok
  · have hfault : (scan "Give  him x1\t?").isOk = false := by decide +kernel
    apply (scan_of_relaid (by decide +kernel)).resolve_left
    rintro ⟨tokens, tokens', hok, -⟩
    rw [hok] at hfault
    cases hfault

end Token

end StackCompiler
