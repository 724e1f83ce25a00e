import StackCompiler.Exchange.Write
import StackCompiler.Proofs.Binary64.Numeral

/-!
# Scanning written symbols

Symbols that are written with a space between them are scanned as the same symbols, except that the
bits of values that are not numbers are lost.
-/

namespace StackCompiler.Exchange

namespace Symbol

/-- What a written symbol is scanned as. -/
def reread : Symbol → Symbol
  | number value => number value.reread
  | symbol => symbol

/-- What a symbol is read as has the same text. -/
theorem text_reread (symbol : Symbol) :
  symbol.reread.text = symbol.text
  := by
  cases symbol with
  | number value => apply value.text_reread
  | _ => rfl

/-- The text of a symbol is not empty. -/
theorem toList_text_ne_nil (symbol : Symbol) :
  symbol.text.toList ≠ []
  := by
  cases symbol with
  | number value => apply value.toList_text_ne_nil
  | _ => decide

/-- No blank is in the text of a symbol. -/
theorem isBlank_of_mem_text {symbol : Symbol} {c : Char} (h : c ∈ symbol.text.toList) :
  Text.isBlank c = false
  := by
  cases symbol with
  | number value => apply Binary64.isBlank_of_mem_text h
  | _ =>
    rw [List.mem_singleton.mp h]
    rfl

/-- The first character of a word and more is in the word. -/
theorem mem_of_append_eq_cons {word text rest : List Char} {c : Char} (hne : word ≠ [])
    (h : word ++ text = c :: rest) :
  c ∈ word
  := by
  cases word with
  | nil => cases hne rfl
  | cons d word =>
    obtain ⟨rfl, -⟩ := List.cons.inj h
    apply List.mem_cons_self

/-- A symbol is scanned with all of its text. -/
theorem scan?_text (symbol : Symbol) {text : List Char} (htext : Binary64.EndsNumeral text) :
  scan? (symbol.text.toList ++ text) = some (symbol.reread, symbol.text.toList.length)
  := by
  cases symbol with
  | number value =>
    have hne := value.toList_text_ne_nil
    have hscan := value.scan_text htext
    unfold scan?
    split
    · rename_i heq
      cases value.not_mem_text rfl (by decide) (mem_of_append_eq_cons hne heq)
    · rename_i heq
      cases value.not_mem_text rfl (by decide) (mem_of_append_eq_cons hne heq)
    · rename_i heq
      cases value.not_mem_text rfl (by decide) (mem_of_append_eq_cons hne heq)
    · exact congrArg (Option.map _) hscan
  | _ => rfl

end Symbol

/-- Blanks are skipped. -/
theorem scanFrom_blank {c : Char} (hc : Text.isBlank c) (position : Nat) (text : List Char) :
  scanFrom position (c :: text) = scanFrom (position + c.utf8Size) text
  := by
  rw [scanFrom, if_pos hc]

/-- The symbols of a text that starts with a symbol. -/
theorem scanFrom_symbol (symbol : Symbol) (position : Nat) {text : List Char}
    (htext : Binary64.EndsNumeral text) :
  ∃ span next, scanFrom position (symbol.text.toList ++ text)
    = (scanFrom next text).map ({ symbol := symbol.reread, span } :: ·)
  := by
  have hscan := symbol.scan?_text htext
  have hblank : ∀ c ∈ symbol.text.toList, Text.isBlank c = false :=
    fun c => Symbol.isBlank_of_mem_text
  obtain ⟨c, word, hword⟩ := List.exists_cons_of_ne_nil symbol.toList_text_ne_nil
  rw [hword] at hscan hblank ⊢
  have hc := hblank c List.mem_cons_self
  rw [List.cons_append] at hscan ⊢
  rw [scanFrom, if_neg (by rw [hc]; decide), hscan]
  dsimp only
  rw [List.length_cons, Nat.add_sub_cancel, List.drop_left]
  generalize Span.ofLength position _ = span
  use span, span.stop
  cases scanFrom span.stop text <;> rfl

/-- A blank ends a numeral. -/
theorem endsNumeral_of_isBlank {c : Char} (hc : Text.isBlank c) (text : List Char) :
  Binary64.EndsNumeral (c :: text)
  := by
  intro d hd
  cases hd
  simp only [Text.isBlank, Bool.or_eq_true, beq_iff_eq] at hc
  rcases hc with (((rfl | rfl) | rfl) | rfl) | rfl <;> decide

/-- The symbols of a text that starts with a symbol and a blank. -/
theorem scanFrom_symbol_blank (symbol : Symbol) {c : Char} (hc : Text.isBlank c) {text : List Char}
    {symbols : List Symbol}
    (h : ∀ position, ∃ placed, scanFrom position text = .ok placed
      ∧ placed.map (·.symbol) = symbols) (position : Nat) :
  ∃ placed, scanFrom position (symbol.text.toList ++ c :: text) = .ok placed
    ∧ placed.map (·.symbol) = symbol.reread :: symbols
  := by
  obtain ⟨span, next, heq⟩ :=
    scanFrom_symbol symbol position (endsNumeral_of_isBlank hc text)
  obtain ⟨placed, hplaced, rfl⟩ := h (next + c.utf8Size)
  rw [heq, scanFrom_blank hc, hplaced]
  exact ⟨_, rfl, rfl⟩

/-- Symbols that are written with a space between them and a line feed after them are scanned. -/
theorem scanFrom_symbols (symbols : List Symbol) (position : Nat) :
  ∃ placed, scanFrom position (" ".intercalate (symbols.map (·.text)) ++ "\n").toList = .ok placed
    ∧ placed.map (·.symbol) = symbols.map Symbol.reread
  := by
  have hend : ∀ position, ∃ placed, scanFrom position [] = .ok placed
      ∧ placed.map (·.symbol) = [] := fun position => ⟨[], by rw [scanFrom], rfl⟩
  have hbreak : Text.isBlank '\n' := rfl
  -- Every symbol has a blank after it, so no numeral can take in what follows.
  induction symbols generalizing position with
  | nil =>
    obtain ⟨placed, hplaced, hsymbols⟩ := hend (position + '\n'.utf8Size)
    rw [← scanFrom_blank hbreak] at hplaced
    exact ⟨placed, hplaced, hsymbols⟩
  | cons symbol symbols ih =>
    cases symbols with
    | nil =>
      have htext : (" ".intercalate [symbol.text] ++ "\n").toList
          = symbol.text.toList ++ ['\n'] := by
        rw [String.intercalate_singleton, String.toList_append]
        rfl
      rw [List.map_cons, List.map_nil, htext]
      apply scanFrom_symbol_blank symbol hbreak hend
    | cons other symbols =>
      have htext : (" ".intercalate ((symbol :: other :: symbols).map (·.text)) ++ "\n").toList
          = symbol.text.toList
            ++ ' ' :: (" ".intercalate ((other :: symbols).map (·.text)) ++ "\n").toList := by
        rw [List.map_cons, List.map_cons, String.intercalate_cons_cons, String.append_assoc,
          String.append_assoc, String.toList_append, String.toList_append]
        rfl
      rw [htext]
      apply scanFrom_symbol_blank symbol rfl ih

end StackCompiler.Exchange
