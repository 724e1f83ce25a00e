import StackCompiler.Proofs.Token.Lexemes

/-!
# Tokens tile the source

The tokens of a source stand one after the other, each on a piece of the source that is not empty,
with nothing but blanks between them and with the end of the input at the end.  A piece that is
taken out of the source and scanned on its own makes the same token: what makes a piece a token is
not in the text around it.
-/

namespace StackCompiler.Token

open Text

/-! ### Pieces on their own -/

/-- A piece that makes a token makes it without the text after it. -/
theorem Reads.alone {piece rest : List Char} {kind : TokenKind} (h : Reads piece rest (.ok kind)) :
  Reads piece [] (.ok kind)
  := by
  have hstarts : ∀ {keyword}, Keyword.Starts keyword (piece ++ []) →
      Keyword.Starts keyword (piece ++ rest) := by
    intro keyword hstarts
    rw [List.append_nil] at hstarts
    exact List.IsPrefix.trans hstarts (fold_isPrefix piece rest)
  have hnone : NoKeyword (piece ++ rest) → NoKeyword (piece ++ []) :=
    fun h entry hentry hstart => h entry hentry (hstarts hstart)
  generalize hresult : Except.ok kind = result at h
  cases h with
  | keyword hentry hpiece hlongest =>
    apply Reads.keyword hentry hpiece
    intro other hother hstart
    apply hlongest other hother (hstarts hstart)
  | number hkeyword hpiece hrest =>
    exact .number (hnone hkeyword) hpiece ⟨by nofun, .inr (by nofun)⟩
  | name hkeyword hpiece hrest => exact .name (hnone hkeyword) hpiece (by nofun)
  | other => cases hresult

theorem Reads.byteLength_pos {piece rest : List Char} {result : Except ScanFault TokenKind}
    (h : Reads piece rest result) :
  0 < byteLength piece
  := by
  obtain ⟨c, others, rfl, -⟩ := h.exists_cons
  rw [byteLength_cons]
  have hsize := c.utf8Size_pos
  omega

/-- A piece that makes a token is scanned as that token. -/
theorem scan_of_reads {piece rest : List Char} {kind : TokenKind} (h : Reads piece rest (.ok kind))
    (hnul : ∀ c ∈ piece, c ≠ '\x00') :
  scan (String.ofList piece)
    = .ok [⟨kind, ⟨0, byteLength piece⟩⟩, ⟨.endOfInput, ⟨byteLength piece, byteLength piece⟩⟩]
  := by
  rw [scan, sourceText_ofList hnul, ← List.append_nil piece, scanFrom_of_reads h.alone, scanFrom]
  simp [Except.mapError, Except.bind, Except.map, Span.ofLength]

/-! ### The tiling -/

section Scanned

variable {position : Nat} {text : List Char} {tokens : List Token}
  (h : Scans position text (.ok tokens))

include h

/-- No token begins before the one in front of it has ended. -/
theorem Scans.pairwise :
  (∀ token ∈ tokens, position ≤ token.span.start)
    ∧ tokens.Pairwise fun token next => token.span.stop ≤ next.span.start
  := by
  induction h using Scans.ok_induction with
  | done position => simp
  | blank hblank h ih =>
    refine ⟨fun token htoken => ?_, ih.2⟩
    have hle := ih.1 token htoken
    omega
  | token hreads h ih =>
    refine ⟨List.forall_mem_cons.mpr ⟨le_rfl, fun token htoken => ?_⟩, List.pairwise_cons.mpr ih⟩
    have hle := ih.1 token htoken
    omega

/-- Every token but the last stands on a piece of the text. -/
theorem Scans.exists_body :
  ∃ body, tokens = body ++ [⟨.endOfInput, .ofLength (position + byteLength text) 0⟩]
    ∧ ∀ token ∈ body, ∃ before piece after, text = before ++ (piece ++ after)
      ∧ token.span = .ofLength (position + byteLength before) (byteLength piece)
      ∧ Reads piece after (.ok token.kind)
  := by
  induction h using Scans.ok_induction with
  | done position => exact ⟨[], rfl, by nofun⟩
  | @blank position c text tokens hblank h ih =>
    obtain ⟨body, rfl, hbody⟩ := ih
    refine ⟨body, by rw [byteLength_cons, Nat.add_assoc], fun token htoken => ?_⟩
    obtain ⟨before, piece, after, rfl, hspan, hreads⟩ := hbody token htoken
    exact ⟨c :: before, piece, after, rfl, by rw [hspan, byteLength_cons, Nat.add_assoc], hreads⟩
  | @token position piece rest kind tokens hreads h ih =>
    obtain ⟨body, rfl, hbody⟩ := ih
    refine ⟨_ :: body, by rw [byteLength_append, ← Nat.add_assoc]; rfl,
      List.forall_mem_cons.mpr ⟨⟨[], piece, rest, rfl, rfl, hreads⟩, fun token htoken => ?_⟩⟩
    obtain ⟨before, piece', after, rfl, hspan, hreads'⟩ := hbody token htoken
    exact ⟨piece ++ before, piece', after, by rw [List.append_assoc],
      by rw [hspan, byteLength_append, Nat.add_assoc], hreads'⟩

/-- A character under no token is a blank. -/
theorem Scans.isBlank_or_covered {before after : List Char} {c : Char}
    (htext : text = before ++ c :: after) :
  isBlank c ∨ ∃ token ∈ tokens, token.span.start ≤ position + byteLength before
    ∧ position + byteLength before + c.utf8Size ≤ token.span.stop
  := by
  induction h using Scans.ok_induction generalizing before with
  | done position => simp at htext
  | @blank position d text tokens hblank h ih =>
    cases before with
    | nil =>
      cases htext
      exact .inl hblank
    | cons e before =>
      obtain ⟨rfl, rfl⟩ := List.cons_eq_cons.mp htext
      rw [byteLength_cons, ← Nat.add_assoc]
      apply ih rfl
  | @token position piece rest kind tokens hreads h ih =>
    rcases List.append_eq_append_iff.mp htext with ⟨taken, rfl, hrest⟩ | ⟨others, hpiece, hrest⟩
    · obtain hblank | ⟨token, htoken, hstart, hstop⟩ := ih hrest
      · exact .inl hblank
      · rw [byteLength_append, ← Nat.add_assoc]
        exact .inr ⟨token, List.mem_cons_of_mem _ htoken, hstart, hstop⟩
    · cases others with
      | nil =>
        obtain rfl : piece = before := by rw [hpiece, List.append_nil]
        obtain hblank | ⟨token, htoken, hstart, hstop⟩ := @ih [] hrest.symm
        · exact .inl hblank
        · exact .inr ⟨token, List.mem_cons_of_mem _ htoken, hstart, hstop⟩
      | cons d others =>
        obtain ⟨rfl, -⟩ := List.cons_eq_cons.mp hrest
        refine .inr ⟨_, List.mem_cons_self, Nat.le_add_right _ _, ?_⟩
        simp only [Span.ofLength, hpiece, byteLength_append, byteLength_cons]
        omega

end Scanned

/-- The tokens of a text stand one after the other on pieces of it, with blanks between them. -/
structure Tiles (text : List Char) (tokens : List Token) : Prop where
  /-- No token begins before the one in front of it has ended. -/
  increasing : tokens.Pairwise fun token next => token.span.stop ≤ next.span.start
  /-- The last token is the end of the input, at the end of the text.  Every other token is
  something else, and it stands on a piece that is not empty and makes the same token when it is
  scanned on its own. -/
  pieces : ∃ body, tokens = body ++ [⟨.endOfInput, ⟨byteLength text, byteLength text⟩⟩]
    ∧ ∀ token ∈ body, token.kind ≠ .endOfInput ∧ token.span.start < token.span.stop
      ∧ ∃ before piece after, text = before ++ (piece ++ after)
        ∧ token.span = ⟨byteLength before, byteLength before + byteLength piece⟩
        ∧ scan (String.ofList piece) = .ok [⟨token.kind, ⟨0, byteLength piece⟩⟩,
            ⟨.endOfInput, ⟨byteLength piece, byteLength piece⟩⟩]
  /-- A character that is no blank is part of what a token stands on. -/
  covers : ∀ before c after, text = before ++ c :: after → isBlank c = false →
    ∃ token ∈ tokens, token.span.start ≤ byteLength before
      ∧ byteLength before + c.utf8Size ≤ token.span.stop

/-- The tokens of a source tile the part of it that counts. -/
theorem scan_tiles {source : String} {tokens : List Token} (h : scan source = .ok tokens) :
  Tiles (sourceText source) tokens
  := by
  have hscans := scans_iff.mpr h
  have hnul : ∀ c ∈ sourceText source, c ≠ '\x00' := by
    intro c hc
    simpa using List.mem_takeWhile_imp hc
  obtain ⟨body, hbody, hpieces⟩ := hscans.exists_body
  rw [Nat.zero_add] at hbody
  refine ⟨hscans.pairwise.2, ⟨body, hbody, fun token htoken => ?_⟩, ?_⟩
  · obtain ⟨before, piece, after, htext, hspan, hreads⟩ := hpieces token htoken
    rw [htext] at hnul
    have hpiece : ∀ c ∈ piece, c ≠ '\x00' := fun c hc =>
      hnul c (List.mem_append_right _ (List.mem_append_left _ hc))
    have hpos := hreads.byteLength_pos
    rw [Nat.zero_add] at hspan
    refine ⟨hreads.ne_endOfInput, ?_, before, piece, after, htext, hspan,
      scan_of_reads hreads hpiece⟩
    simp only [hspan, Span.ofLength]
    omega
  · intro before c after htext hblank
    rcases hscans.isBlank_or_covered htext with hc | hcovered
    · cases hblank.symm.trans hc
    · simpa only [Nat.zero_add] using hcovered

/-- A source with blanks inside a keyword, a number that ends in a point, a keyword inside a word,
and more text after a NUL character. -/
def loopOverIndex : String := "So  it\tbegins2.index \x00é"

theorem scan_tiles_loopOverIndex :
  ∃ tokens, scan loopOverIndex = .ok tokens ∧ Tiles (sourceText loopOverIndex) tokens
    ∧ tokens.map Token.span = [⟨0, 13⟩, ⟨13, 15⟩, ⟨15, 17⟩, ⟨17, 20⟩, ⟨21, 21⟩]
  := by
  have hscan : scan loopOverIndex
      = .ok [⟨.control .loop, ⟨0, 13⟩⟩, ⟨.number (.ofNat 2), ⟨13, 15⟩⟩, ⟨.unary .input, ⟨15, 17⟩⟩,
          ⟨.variable "dex", ⟨17, 20⟩⟩, ⟨.endOfInput, ⟨21, 21⟩⟩] := by
    decide +kernel
  exact ⟨_, hscan, scan_tiles hscan, rfl⟩

end StackCompiler.Token
