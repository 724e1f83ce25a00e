import StackCompiler.Command.Report
import StackCompiler.Proofs.Compile.FrontEnds
import StackCompiler.Proofs.Exchange.Descent
import StackCompiler.Proofs.Program.Misfit
import StackCompiler.Proofs.Token.Tiling

/-!
# The places of errors

Every place that an error points at is a piece of the whole input, between characters of it: the
pieces that are scanned stand one after the other, tokens and symbols keep the spans of their
pieces, and an error is about one of these spans or about the end.

A report widens an empty span to the character before it, which is a piece of the input as well.
-/

namespace StackCompiler

open Text

/-! ### Pieces of a text -/

theorem Text.utf8ByteSize_ofList (text : List Char) :
  (String.ofList text).utf8ByteSize = byteLength text
  := by
  induction text with
  | nil => rfl
  | cons c text ih =>
    rw [String.ofList_cons, String.utf8ByteSize_append, String.utf8ByteSize_singleton, ih,
      byteLength_cons]

/-- A position is valid if it is the end of some first part of the text. -/
theorem Text.isValid_iff {text : String} {position : Nat} :
  String.Pos.Raw.IsValid text ⟨position⟩
    ↔ ∃ before after, text.toList = before ++ after ∧ position = byteLength before
  := by
  rw [String.Pos.Raw.isValid_iff_exists_append]
  constructor
  · rintro ⟨before, after, rfl, hposition⟩
    refine ⟨before.toList, after.toList, String.toList_append, ?_⟩
    rw [← utf8ByteSize_ofList, String.ofList_toList]
    exact congrArg String.Pos.Raw.byteIdx hposition
  · rintro ⟨before, after, htext, rfl⟩
    refine ⟨String.ofList before, String.ofList after, ?_, ?_⟩
    · rw [← String.ofList_append, ← htext, String.ofList_toList]
    · rw [← utf8ByteSize_ofList]
      rfl

namespace Span

/-- The span lies in the text, and at both of its ends no character is cut. -/
structure Fits (span : Span) (text : String) : Prop where
  start_le_stop : span.start ≤ span.stop
  stop_le_size : span.stop ≤ text.utf8ByteSize
  start_isValid : String.Pos.Raw.IsValid text ⟨span.start⟩
  stop_isValid : String.Pos.Raw.IsValid text ⟨span.stop⟩

/-- The span is that of a piece of a text whose first character stands at the given position. -/
def StandsIn (span : Span) (position : Nat) (text : List Char) : Prop :=
  ∃ before piece after, text = before ++ (piece ++ after)
    ∧ span = .ofLength (position + byteLength before) (byteLength piece)

namespace StandsIn

variable {span : Span} {position : Nat} {text : List Char}

/-- The first piece of a text. -/
theorem first (position : Nat) (piece after : List Char) :
  (ofLength position (byteLength piece)).StandsIn position (piece ++ after)
  := ⟨[], piece, after, rfl, rfl⟩

theorem after (before : List Char) (h : span.StandsIn (position + byteLength before) text) :
  span.StandsIn position (before ++ text)
  := by
  obtain ⟨front, piece, rest, rfl, rfl⟩ := h
  refine ⟨before ++ front, piece, rest, (List.append_assoc _ _ _).symm, ?_⟩
  rw [byteLength_append, Nat.add_assoc]

theorem before (h : span.StandsIn position text) (after : List Char) :
  span.StandsIn position (text ++ after)
  := by
  obtain ⟨front, piece, rest, rfl, rfl⟩ := h
  exact ⟨front, piece, rest ++ after, by simp, rfl⟩

/-- The span of a piece of a text fits it. -/
theorem fits {text : String} (h : span.StandsIn 0 text.toList) :
  span.Fits text
  := by
  obtain ⟨before, piece, after, htext, rfl⟩ := h
  have hstop : String.Pos.Raw.IsValid text ⟨0 + byteLength before + byteLength piece⟩ := by
    apply isValid_iff.mpr
    exact ⟨before ++ piece, after, by simpa using htext, by simp⟩
  refine ⟨Nat.le_add_right _ _, hstop.le_utf8ByteSize, ?_, hstop⟩
  apply isValid_iff.mpr
  exact ⟨before, piece ++ after, htext, Nat.zero_add _⟩

end StandsIn

/-- The empty span at the end of a span that fits. -/
theorem Fits.atStop {span : Span} {text : String} (h : span.Fits text) :
  Fits ⟨span.stop, span.stop⟩ text
  := ⟨le_rfl, h.stop_le_size, h.stop_isValid, h.stop_isValid⟩

end Span

/-! ### Visible spans -/

namespace Report

/-- Nothing starts before the text itself. -/
theorem lastBefore_self (position : Nat) (text : List Char) :
  lastBefore position position text = none
  := by
  cases text <;> simp [lastBefore]

/-- The last character before a position is the one that ends there. -/
theorem lastBefore_concat (position : Nat) (front : List Char) (c : Char) (after : List Char) :
  lastBefore (position + byteLength front + c.utf8Size) position (front ++ c :: after)
    = some (.ofLength (position + byteLength front) c.utf8Size)
  := by
  have hsize := c.utf8Size_pos
  induction front generalizing position with
  | nil =>
    rw [List.nil_append, byteLength_nil, Nat.add_zero, lastBefore, if_pos (by omega),
      lastBefore_self, Option.getD_none]
  | cons d front ih =>
    rw [List.cons_append, byteLength_cons, ← Nat.add_assoc, lastBefore, if_pos (by omega), ih,
      Option.getD_some]

/-- What is shown of a span that starts behind the given characters: the last of them instead of an
empty span, if there is one. -/
def shownBehind (front : List Char) (span : Span) : Span :=
  if span.isEmpty then
    (front.getLast?.map fun c => ⟨byteLength front - c.utf8Size, byteLength front⟩).getD span
  else span

theorem shownBehind_concat {span : Span} (h : span.isEmpty) (front : List Char) (c : Char) :
  shownBehind (front ++ [c]) span = .ofLength (byteLength front) c.utf8Size
  := by
  simp [shownBehind, h, Span.ofLength]

section Visible

variable {front after : List Char} {span : Span} (hstart : span.start = byteLength front)

include hstart

/-- To show a span, the text is cut where the span starts. -/
theorem visibleSpan_append :
  visibleSpan (front ++ after) span = shownBehind front span
  := by
  by_cases hempty : span.isEmpty
  · rw [visibleSpan, if_pos hempty, hstart]
    rcases List.eq_nil_or_concat' front with rfl | ⟨front, c, rfl⟩
    · rw [byteLength_nil, lastBefore_self, shownBehind, if_pos hempty]
      rfl
    · have hlast := lastBefore_concat 0 front c after
      rw [Nat.zero_add] at hlast
      rw [shownBehind_concat hempty, byteLength_append, byteLength_cons, byteLength_nil,
        List.append_assoc, List.singleton_append, Nat.add_zero, hlast, Option.getD_some]
  · rw [visibleSpan, shownBehind, if_neg hempty, if_neg hempty]

/-- What is shown of a span that fits is again a span that fits, and it is empty only if there is
nothing in the span and nothing before it. -/
theorem shownBehind_fits {text : String} (htext : text.toList = front ++ after)
    (h : span.Fits text) :
  (shownBehind front span).Fits text
    ∧ ((shownBehind front span).isEmpty ↔ span.isEmpty ∧ span.start = 0)
  := by
  by_cases hempty : span.isEmpty
  · rcases List.eq_nil_or_concat' front with rfl | ⟨front, c, rfl⟩
    · rw [shownBehind, if_pos hempty]
      exact ⟨h, iff_of_true hempty ⟨hempty, hstart⟩⟩
    · have hsize := c.utf8Size_pos
      have hpiece : (Span.ofLength (byteLength front) c.utf8Size).StandsIn 0 text.toList :=
        ⟨front, [c], after, by rw [htext, List.append_assoc], by rw [Nat.zero_add]; rfl⟩
      have hshown : (Span.ofLength (byteLength front) c.utf8Size).isEmpty = false :=
        decide_eq_false (Nat.not_le_of_lt (Nat.lt_add_of_pos_right hsize))
      rw [shownBehind_concat hempty, hshown]
      refine ⟨hpiece.fits, iff_of_false Bool.false_ne_true fun hboth => ?_⟩
      rw [hboth.2, byteLength_append, byteLength_cons] at hstart
      omega
  · rw [shownBehind, if_neg hempty]
    exact ⟨h, iff_of_false hempty fun hboth => hempty hboth.1⟩

end Visible

end Report

/-! ### Places in a source -/

namespace Token

section Scanned

variable {position : Nat} {text : List Char}

/-- Every token stands on a piece of the text; the end of the input stands on an empty one. -/
theorem Scans.standsIn_of_mem {tokens : List Token} {token : Token}
    (h : Scans position text (.ok tokens)) (hmem : token ∈ tokens) :
  token.span.StandsIn position text
  := by
  obtain ⟨body, rfl, hbody⟩ := h.exists_body
  rcases List.mem_append.mp hmem with hmem | hmem
  · obtain ⟨before, piece, after, htext, hspan, -⟩ := hbody token hmem
    exact ⟨before, piece, after, htext, hspan⟩
  · cases List.mem_singleton.mp hmem
    exact ⟨text, [], [], by simp, rfl⟩

/-- What cannot be scanned stands on a piece of the text. -/
theorem Scans.standsIn_of_error {error : ScanError} (h : Scans position text (.error error)) :
  error.span.StandsIn position text
  := by
  generalize hresult : Except.error error = result at h
  induction h with
  | done position => cases hresult
  | @blank position c text result hblank h ih => exact (ih hresult).after [c]
  | @token position piece rest kind result hreads h ih =>
    cases result with
    | ok tokens => cases hresult
    | error e =>
      cases hresult
      exact (ih rfl).after piece
  | @fault position piece rest fault hreads =>
    cases hresult
    exact .first position piece rest

end Scanned

/-- What is scanned of a source is the front of it. -/
theorem exists_toList_eq (source : String) :
  ∃ after, source.toList = sourceText source ++ after
  := ⟨_, (List.takeWhile_append_dropWhile ..).symm⟩

theorem fits_of_scan {source : String} {tokens : List Token} {token : Token}
    (h : scan source = .ok tokens) (hmem : token ∈ tokens) :
  token.span.Fits source
  := by
  obtain ⟨after, hsource⟩ := exists_toList_eq source
  apply Span.StandsIn.fits
  rw [hsource]
  exact ((scans_iff.mpr h).standsIn_of_mem hmem).before after

theorem fits_of_scan_error {source : String} {error : ScanError}
    (h : scan source = .error error) :
  error.span.Fits source
  := by
  obtain ⟨after, hsource⟩ := exists_toList_eq source
  apply Span.StandsIn.fits
  rw [hsource]
  exact (scans_iff.mpr h).standsIn_of_error.before after

/-- If the spans of tokens fit, then so does that of what is found at any position. -/
theorem foundAt_fits {text : String} {tokens : List Token}
    (h : ∀ token ∈ tokens, token.span.Fits text) (position : Nat) :
  (foundAt tokens position).span.Fits text
  := by
  unfold foundAt
  cases hfound : tokens[position]? with
  | some token => exact h token (List.mem_of_getElem? hfound)
  | none =>
    unfold endAfter
    cases hlast : tokens.getLast? with
    | none => exact (Span.StandsIn.first 0 [] text.toList).fits
    | some token => exact (h token (List.mem_of_getLast? hlast)).atStop

end Token

namespace FunctionNames

/-- A function is defined again at one of the tokens. -/
theorem exists_span_eq_of_register_error {tokens : List Token} {funcs : SymbolTable}
    {error : SyntaxError} (h : register tokens funcs = .error error) :
  ∃ token ∈ tokens, token.span = error.span
  := by
  rcases bind_eq_error.mp h with henter | ⟨final, -, h⟩
  · obtain ⟨position, name, span, hclash, -, rfl⟩ := enter_eq_error_iff.mp henter
    exact ⟨_, List.mem_of_getElem? (getElem?_of_declaredAt? hclash.1), rfl⟩
  · cases h

end FunctionNames

/-- A syntax error is about what is found at some position. -/
theorem Program.exists_span_eq_of_ofTokens_error {funcs : SymbolTable} {tokens : List Token}
    {error : SyntaxError} (h : Program.ofTokens funcs tokens = .error error) :
  ∃ position, error.span = (Token.foundAt tokens position).span
  := by
  rw [Program.ofTokens_eq] at h
  obtain ⟨mismatch, -, rfl⟩ := mapError_eq_error h
  unfold Parse.Mismatch.toError
  dsimp only
  split
  · exact ⟨_, rfl⟩
  · exact ⟨_, rfl⟩

/-- The place of an error in a source fits the source. -/
theorem fits_of_parse_error {source entry : String} {error : CompileError} {span : Span}
    (h : (parse source entry).result = .error error) (hspan : error.span? = some span) :
  span.Fits source
  := by
  rcases parse_error_stages h with ⟨e, hscan, rfl⟩ | ⟨scanned, hscan, e, rfl, hparse⟩
  · cases hspan
    exact Token.fits_of_scan_error hscan
  · cases hspan
    have hscanned : ∀ token ∈ scanned, token.span.Fits source :=
      fun token hmem => Token.fits_of_scan hscan hmem
    rcases hparse with hregister | ⟨tokens, funcs, hregister, hparse⟩
    · obtain ⟨token, hmem, htoken⟩ := FunctionNames.exists_span_eq_of_register_error hregister
      exact htoken ▸ hscanned token hmem
    · obtain ⟨position, hfound⟩ := Program.exists_span_eq_of_ofTokens_error hparse
      rw [hfound]
      apply Token.foundAt_fits
      obtain ⟨final, -, hmarked⟩ := Parse.bind_eq_ok.mp hregister
      cases hmarked
      intro marked hmarked
      obtain ⟨token, hmem, rfl⟩ := List.mem_map.mp hmarked
      rw [(FunctionNames.marks_retag funcs token).span]
      exact hscanned token hmem

/-! ### Places in a written tree -/

namespace Binary64

theorem scanUnsigned_length_pos {negative : Bool} {text : List Char} {x : Binary64} {length : Nat}
    (h : scanUnsigned negative text = some (x, length)) :
  0 < length
  := by
  unfold scanUnsigned at h
  split at h
  · cases h
    decide
  · cases h
    decide
  · split at h
    · cases h
    · rename_i hwhole
      cases h
      have hpos := List.length_pos_of_ne_nil hwhole
      omega

theorem scan_length_pos {text : List Char} {x : Binary64} {length : Nat}
    (h : scan text = some (x, length)) :
  0 < length
  := by
  unfold scan at h
  split at h
  · obtain ⟨⟨y, others⟩, -, heq⟩ := Option.map_eq_some_iff.mp h
    cases heq
    omega
  · exact scanUnsigned_length_pos h

end Binary64

namespace Exchange

/-- A symbol takes at least one character. -/
theorem Symbol.scan?_length_pos {text : List Char} {symbol : Symbol} {length : Nat}
    (h : scan? text = some (symbol, length)) :
  0 < length
  := by
  unfold scan? at h
  split at h
  · cases h
    decide
  · cases h
    decide
  · cases h
    decide
  · obtain ⟨⟨x, others⟩, hscan, heq⟩ := Option.map_eq_some_iff.mp h
    cases heq
    exact Binary64.scan_length_pos hscan

/-- The places that the outcome of a scan is about. -/
def places : Except Span (List Placed) → List Span
  | .ok symbols => symbols.map (·.span)
  | .error span => [span]

/-- Every symbol stands on a piece of the text, and so does what is no symbol. -/
theorem standsIn_of_mem_places {position : Nat} {text : List Char} {span : Span}
    (h : span ∈ places (scanFrom position text)) :
  span.StandsIn position text
  := by
  fun_induction scanFrom position text with
  | case1 => cases h
  | case2 position c text hblank ih => exact (ih h).after [c]
  | case3 position c text hblank hnone =>
    cases List.mem_singleton.mp h
    exact .first position [c] text
  | case4 position c text hblank symbol length hscan first ih =>
    -- The scan goes on behind the first character, and the symbol takes at least that.
    have hlength := Symbol.scan?_length_pos hscan
    have htext : c :: text = (c :: text).take length ++ text.drop (length - 1) := by
      rw [← List.drop_cons hlength, List.take_append_drop]
    have hcases : span = first ∨ span ∈ places (scanFrom first.stop (text.drop (length - 1))) := by
      cases hrest : scanFrom first.stop (text.drop (length - 1)) with
      | error other =>
        rw [hrest] at h
        exact .inr h
      | ok symbols =>
        rw [hrest] at h
        exact List.mem_cons.mp h
    rw [htext]
    rcases hcases with rfl | hmem
    · exact .first position _ _
    · exact (ih hmem).after _

/-- The place of the error has the property, or the places of all symbols that are left have it. -/
def PlacesHave (P : Span → Prop) : Except ReadError (Option NodeId × Tree × List Placed) → Prop
  | .error error => P error.span
  | .ok (_, _, rest) => ∀ placed ∈ rest, P placed.span

section Reading

variable {stop : Nat} {P : Span → Prop} (hstop : P ⟨stop, stop⟩)

include hstop

/-- An error about a symbol that does not fit is about the first symbol or about the end. -/
theorem span_unexpected {symbols : List Placed} (h : ∀ placed ∈ symbols, P placed.span)
    (expected : ReadExpected) :
  P (unexpected stop expected symbols).span
  := by
  cases symbols with
  | nil => exact hstop
  | cons placed rest => exact h placed List.mem_cons_self

theorem span_of_readKind_error {symbols : List Placed} {error : ReadError}
    (h : ∀ placed ∈ symbols, P placed.span) (herror : readKind stop symbols = .error error) :
  P error.span
  := by
  unfold readKind at herror
  split at herror
  · simp only [List.forall_mem_cons] at h
    split at herror
    · cases herror
      exact h.1
    · split at herror
      · cases herror
        exact h.2.1
      · cases herror
  · cases herror
    exact span_unexpected hstop (fun placed hmem => h placed (List.mem_cons_of_mem _ hmem)) _
  · cases herror
    exact span_unexpected hstop h _

/-- Reading fails at one of the symbols or at the end, and what is left are symbols that were
there. -/
theorem placesHave_readFrom {t : Tree} {waiting : List Pending} {focus : Focus}
    {symbols : List Placed} (h : ∀ placed ∈ symbols, P placed.span) :
  PlacesHave P (readFrom stop t waiting focus symbols)
  := by
  fun_induction readFrom stop t waiting focus symbols with
  | case1 t waiting span rest ih =>
    apply ih
    exact fun placed hmem => h placed (List.mem_cons_of_mem _ hmem)
  | case2 t waiting span rest error hkind =>
    apply span_of_readKind_error hstop _ hkind
    exact fun placed hmem => h placed (List.mem_cons_of_mem _ hmem)
  | case3 t waiting span rest kind others hkind ih =>
    apply ih
    obtain ⟨_, _, _, _, _, rfl, -, -⟩ := readKind_eq_ok_iff.mp hkind
    simp only [List.forall_mem_cons] at h
    exact h.2.2.2
  | case4 => exact span_unexpected hstop h _
  | case5 t symbols link => exact h
  | case6 t symbols link kind waiting ih => exact ih h
  | case7 t link kind left waiting span rest id grown hnode ih =>
    apply ih
    exact fun placed hmem => h placed (List.mem_cons_of_mem _ hmem)
  | case8 => exact span_unexpected hstop h _

end Reading

end Exchange

/-- The place of an error in a text that writes no tree fits the text. -/
theorem Tree.fits_of_read_error {text : String} {error : ReadError}
    (h : Tree.read text = .error error) :
  error.span.Fits text
  := by
  have hplaces : ∀ span ∈ Exchange.places (Exchange.scanFrom 0 text.toList), span.Fits text :=
    fun span hmem => (Exchange.standsIn_of_mem_places hmem).fits
  have hstop : Span.Fits ⟨text.utf8ByteSize, text.utf8ByteSize⟩ text :=
    ⟨le_rfl, le_rfl, String.Pos.Raw.isValid_rawEndPos, String.Pos.Raw.isValid_rawEndPos⟩
  rw [Tree.read] at h
  rcases bind_eq_error.mp h with h | ⟨symbols, hscan, h⟩
  · obtain ⟨span, hscan, rfl⟩ := mapError_eq_error h
    rw [hscan] at hplaces
    exact hplaces span List.mem_cons_self
  · rw [mapError_eq_ok hscan] at hplaces
    have hsymbols : ∀ placed ∈ symbols, placed.span.Fits text := List.forall_mem_map.mp hplaces
    have houtcome : Exchange.PlacesHave (·.Fits text)
        (Exchange.readFrom text.utf8ByteSize {} [] .awaiting symbols) :=
      Exchange.placesHave_readFrom hstop hsymbols
    rcases bind_eq_error.mp h with h | ⟨⟨link, t, rest⟩, hread, h⟩
    · rw [h] at houtcome
      exact houtcome
    · rw [hread] at houtcome
      cases rest with
      | nil => cases h
      | cons placed rest =>
        cases h
        exact houtcome placed List.mem_cons_self

/-! ### Errors that can be shown -/

/-- Errors in a tree have no place. -/
theorem span?_of_compileTree_error {t : Tree} {error : CompileError}
    (h : (compileTree t).result = .error error) :
  error.span? = none
  := by
  rcases compileTree_eq_error h with ⟨rfl, -⟩ | ⟨e, rfl⟩
  · rfl
  · rfl

/-- The place of an error in a source or in a text that is read as a tree lies in the whole text and
cuts no character.  The text can be cut where the place starts, and what is shown of the place by
means of the text before it is such a place again; it is empty only if the place is empty and at the
start of the text. -/
theorem errorSpan_fits (text : String) (error : CompileError) (span : Span)
    (h : (∃ entry, (compile text entry).result = .error error)
      ∨ (readTree text).result = .error error)
    (hspan : error.span? = some span) :
  span.Fits text
    ∧ (∃ front after, text.toList = front ++ after
      ∧ byteLength front = min span.start text.utf8ByteSize
      ∧ Report.visibleSpan text.toList span = Report.shownBehind front span)
    ∧ (Report.visibleSpan text.toList span).Fits text
    ∧ ((Report.visibleSpan text.toList span).isEmpty ↔ span.isEmpty ∧ span.start = 0)
  := by
  have hfits : span.Fits text := by
    rcases h with ⟨entry, h⟩ | h
    · rw [result_compile] at h
      rcases bind_eq_error.mp h with h | ⟨t, -, h⟩
      · exact fits_of_parse_error h hspan
      · rw [span?_of_compileTree_error h] at hspan
        cases hspan
    · rw [result_readTree] at h
      obtain ⟨e, hread, rfl⟩ := mapError_eq_error h
      cases hspan
      exact Tree.fits_of_read_error hread
  obtain ⟨front, after, htext, hstart⟩ := isValid_iff.mp hfits.start_isValid
  have hvisible : Report.visibleSpan text.toList span = Report.shownBehind front span := by
    rw [htext, Report.visibleSpan_append hstart]
  have hsize := hfits.start_le_stop.trans hfits.stop_le_size
  refine ⟨hfits, ⟨front, after, htext, ?_, hvisible⟩, ?_⟩
  · rw [← hstart, Nat.min_eq_left hsize]
  · rw [hvisible]
    exact Report.shownBehind_fits hstart htext hfits

/-- The place of the error that a result is, if it is one and has a place. -/
def errorSpan? {α : Type} : Except CompileError α → Option Span
  | .ok _ => none
  | .error error => error.span?

theorem errorSpan?_eq_some {α : Type} {result : Except CompileError α} {span : Span}
    (h : errorSpan? result = some span) :
  ∃ error, result = .error error ∧ error.span? = some span
  := by
  cases result with
  | ok a => cases h
  | error error => exact ⟨error, rfl, h⟩

/-- A source that ends at a NUL, before a character of two bytes. -/
def endedEarly : String := "Mellon f\x00é"

/-- What is missing at the end of the source is shown at the name before it, and a character that
is no symbol at all of its bytes. -/
theorem errorSpan_fits_endedEarly :
  (∃ error, (compile endedEarly "f").result = .error error ∧ error.span? = some ⟨8, 8⟩
      ∧ Span.Fits ⟨8, 8⟩ endedEarly
      ∧ Report.visibleSpan endedEarly.toList ⟨8, 8⟩ = ⟨7, 8⟩
      ∧ Span.Fits ⟨7, 8⟩ endedEarly)
    ∧ ∃ error, (readTree "(é").result = .error error ∧ error.span? = some ⟨1, 3⟩
      ∧ Span.Fits ⟨1, 3⟩ "(é"
  := by
  have hsource : errorSpan? (compile endedEarly "f").result = some ⟨8, 8⟩ := by decide +kernel
  have htext : errorSpan? (readTree "(é").result = some ⟨1, 3⟩ := by decide +kernel
  have hshown : Report.visibleSpan endedEarly.toList ⟨8, 8⟩ = ⟨7, 8⟩ := by decide +kernel
  obtain ⟨error, herror, hspan⟩ := errorSpan?_eq_some hsource
  obtain ⟨error', herror', hspan'⟩ := errorSpan?_eq_some htext
  obtain ⟨hfits, -, hvisible, -⟩ := errorSpan_fits endedEarly error _ (.inl ⟨"f", herror⟩) hspan
  obtain ⟨hfits', -⟩ := errorSpan_fits "(é" error' _ (.inr herror') hspan'
  rw [hshown] at hvisible
  exact ⟨⟨error, herror, hspan, hfits, hshown, hvisible⟩, error', herror', hspan', hfits'⟩

end StackCompiler
