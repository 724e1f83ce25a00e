import StackCompiler.Proofs.Program.Language
import StackCompiler.Proofs.Program.Prediction

/-!
# The parser reads by prediction

Each function of the parser reads its tokens as they are read for its rule: it succeeds with the
tokens that are left behind the rule, and it fails in front of the token where the reading is stuck.

There is one exception.  After a comparison, a second comparison operator is not left to what comes
next, but is reported at once.  Nothing that comes next begins with such an operator, so the reading
is stuck there all the same, as soon as the next mark is looked for (`Follows.bind_lax`).
-/

namespace StackCompiler

/-- What comes after the first item of a list between the marks of arguments. -/
def Grammar.Rule.listRest (rule : Rule) : Rule :=
  sequence (repeated (sequence (token (.mark .comma)) rule)) (token (.mark .argumentsEnd))

namespace Parse

open Grammar

/-- A complaint about a second comparison is about the first token that is left. -/
def Mismatch.Points (mismatch : Mismatch) : Prop :=
  ∀ op, mismatch.complaint = .chainedComparison op →
    ∃ rest, mismatch.rest = .binary (.comparison op) :: rest

/-- What the parser makes of the tokens is how they are read for the rule.  If `lax` holds, it may
also have read the rule and report a comparison operator that comes next. -/
def Follows {α : Type} (lax : Prop) (rule : Rule) (tokens : List TokenKind) :
    Except Mismatch (α × List TokenKind) → Prop
  | .ok (_, rest) => Predicts rule tokens (.done rest)
  | .error mismatch =>
    mismatch.Points
      ∧ (Predicts rule tokens (.stuck mismatch.rest)
        ∨ lax ∧ Predicts rule tokens (.done mismatch.rest)
          ∧ Terminal.comparison.Begins mismatch.rest)

namespace Follows

variable {α β : Type} {lax : Prop} {rule rule' first second : Rule} {tokens : List TokenKind}
  {result x : Except Mismatch (α × List TokenKind)}
  {f : α × List TokenKind → Except Mismatch (β × List TokenKind)}

/-- The parser follows another rule if the tokens are read alike for both. -/
theorem imp (h : Follows lax rule tokens result)
    (himp : ∀ {outcome}, Predicts rule tokens outcome → Predicts rule' tokens outcome) :
  Follows lax rule' tokens result
  := by
  match result, h with
  | .ok _, h => exact himp h
  | .error _, ⟨hpoints, .inl h⟩ => exact ⟨hpoints, .inl (himp h)⟩
  | .error _, ⟨hpoints, .inr ⟨hlax, h, hbegins⟩⟩ => exact ⟨hpoints, .inr ⟨hlax, himp h, hbegins⟩⟩

/-- What follows a rule strictly follows it laxly. -/
theorem weaken (h : Follows False rule tokens result) :
  Follows lax rule tokens result
  := by
  match result, h with
  | .ok _, h => exact h
  | .error _, ⟨hpoints, .inl h⟩ => exact ⟨hpoints, .inl h⟩

/-- What follows the rule of a nonterminal follows the nonterminal. -/
theorem ref {nonterminal : Nonterminal} (h : Follows lax (rules nonterminal) tokens result) :
  Follows lax (.ref nonterminal) tokens result
  := h.imp .ref

/-- The first alternative is followed where the next token begins it. -/
theorem enter {terminal : Terminal} {kind : TokenKind} (hhead : first.Heads terminal)
    (hkind : terminal.Matches kind) (h : Follows lax first (kind :: tokens) result) :
  Follows lax (.choice first second) (kind :: tokens) result
  := by
  apply h.imp
  intro outcome h
  apply h.left
  rintro rfl
  apply hhead.not_stuck _ h
  exact hkind

/-- The first alternative is passed over where the next token does not begin it. -/
theorem skip {terminal : Terminal} {kind : TokenKind} (hhead : first.Heads terminal)
    (hkind : ¬ terminal.Matches kind) (h : Follows lax second (kind :: tokens) result) :
  Follows lax (.choice first second) (kind :: tokens) result
  := h.imp (.right (hhead.stuck hkind))

/-- A token that matches is read, and the rest of the rule is followed behind it. -/
theorem token {terminal : Terminal} {kind : TokenKind} (hkind : terminal.Matches kind)
    (h : Follows lax second tokens result) :
  Follows lax (.sequence (.token terminal) second) (kind :: tokens) result
  := by
  match result, h with
  | .ok _, h => exact .sequence (.token hkind tokens) h
  | .error _, ⟨hpoints, .inl h⟩ => exact ⟨hpoints, .inl (.sequence (.token hkind tokens) h)⟩
  | .error _, ⟨hpoints, .inr ⟨hlax, h, hbegins⟩⟩ =>
    exact ⟨hpoints, .inr ⟨hlax, .sequence (.token hkind tokens) h, hbegins⟩⟩

/-- The parser misses something where the reading is stuck at once. -/
theorem missing (expected : Expected) (h : Predicts rule tokens (.stuck tokens)) :
  Follows lax rule tokens (missing expected tokens : Except Mismatch (α × List TokenKind))
  := ⟨nofun, .inl h⟩

/-- One rule after the other. -/
theorem bind (hx : Follows False first tokens x)
    (hf : ∀ a middle, Predicts first tokens (.done middle) →
      Follows lax second middle (f (a, middle))) :
  Follows lax (.sequence first second) tokens (x >>= f)
  := by
  match x, hx with
  | .error _, ⟨hpoints, .inl hx⟩ => exact ⟨hpoints, .inl (.sequenceStuck hx)⟩
  | .ok (a, middle), hx =>
    have hsecond := hf a middle hx
    change Follows lax (.sequence first second) tokens (f (a, middle))
    revert hsecond
    generalize f (a, middle) = result
    intro hsecond
    match result, hsecond with
    | .ok _, h => exact .sequence hx h
    | .error _, ⟨hpoints, .inl h⟩ => exact ⟨hpoints, .inl (.sequence hx h)⟩
    | .error _, ⟨hpoints, .inr ⟨hlax, h, hbegins⟩⟩ =>
      exact ⟨hpoints, .inr ⟨hlax, .sequence hx h, hbegins⟩⟩

/-- What comes next is stuck where the rule before it ends in front of a comparison operator. -/
theorem bind_lax (hx : Follows True first tokens x)
    (hstuck : ∀ {middle}, Terminal.comparison.Begins middle →
      Predicts second middle (.stuck middle))
    (hf : ∀ a middle, Predicts first tokens (.done middle) →
      Follows lax second middle (f (a, middle))) :
  Follows lax (.sequence first second) tokens (x >>= f)
  := by
  match x, hx with
  | .error _, ⟨hpoints, .inr ⟨_, hx, hbegins⟩⟩ =>
    exact ⟨hpoints, .inl (.sequence hx (hstuck hbegins))⟩
  | .error _, ⟨hpoints, .inl hx⟩ => exact ⟨hpoints, .inl (.sequenceStuck hx)⟩
  | .ok p, hx => exact bind (x := .ok p) hx hf

/-- After the last part of a rule nothing more is read. -/
theorem finish (hx : Follows lax rule tokens x)
    (hf : ∀ a rest, Follows lax .empty rest (f (a, rest))) :
  Follows lax rule tokens (x >>= f)
  := by
  match x, hx with
  | .error _, hx => exact hx
  | .ok (a, rest), hx =>
    have hend := hf a rest
    change Follows lax rule tokens (f (a, rest))
    revert hend
    generalize f (a, rest) = result
    intro hend
    match result, hend with
    | .ok (b, stop), hend =>
      obtain ⟨⟩ : Predicts .empty rest (.done stop) := hend
      exact hx
    | .error mismatch, ⟨hpoints, .inr ⟨hlax, hend, hbegins⟩⟩ =>
      cases hend
      exact ⟨hpoints, .inr ⟨hlax, hx, hbegins⟩⟩

/-- What is made of the result does not change what is read. -/
theorem map (hx : Follows lax rule tokens x)
    (hf : ∀ a rest, ∃ b, f (a, rest) = .ok (b, rest)) :
  Follows lax rule tokens (x >>= f)
  := by
  apply hx.finish
  intro a rest
  obtain ⟨b, hb⟩ := hf a rest
  rw [hb]
  exact Predicts.empty rest

/-- The parser fails no earlier than where it starts. -/
theorem ne_missing (h : Follows False rule tokens result) (expected : Expected)
    (kind : TokenKind) :
  result ≠ Parse.missing expected (kind :: tokens)
  := by
  rintro rfl
  obtain ⟨-, hstuck | ⟨⟨⟩, -⟩⟩ := h
  have hle : (kind :: tokens).length ≤ tokens.length := hstuck.suffix.length_le
  rw [List.length_cons] at hle
  omega

/-- A repetition goes on where the next token begins what is repeated. -/
theorem unroll {terminal : Terminal} {kind : TokenKind} (hkind : terminal.Matches kind)
    (h : Follows lax (.sequence second (.repeated (.sequence (.token terminal) second))) tokens
      result) :
  Follows lax (.repeated (.sequence (.token terminal) second)) (kind :: tokens) result
  := by
  apply (h.token hkind).imp
  intro outcome h
  apply h.assoc.unroll
  apply (Rule.Heads.sequence (.token terminal)).not_stuck
  exact hkind

/-- A repetition up to a token goes on where that token does not stand. -/
theorem unrollUntil {nonterminal : Nonterminal} {terminal : Terminal}
    (hrule : rules nonterminal = .sequence first second) (hlast : ¬ terminal.Begins tokens)
    (h : Follows lax
      (.sequence first
        (.sequence second (.sequence (.repeated (.ref nonterminal)) (.token terminal))))
      tokens result) :
  Follows lax (.sequence (.repeated (.ref nonterminal)) (.token terminal)) tokens result
  := by
  apply h.imp
  intro outcome h
  apply Predicts.unrollUntil hlast
  apply Predicts.expand
  rw [hrule]
  exact h.assoc

/-- The rest of a list begins with a comma. -/
theorem listRest (h : Follows lax (.sequence rule rule.listRest) tokens result) :
  Follows lax rule.listRest (.mark .comma :: tokens) result
  := by
  apply (h.token (.mark .comma)).imp
  intro outcome h
  exact h.assoc.unrollUntil nofun

/-- Without a comma, the list ends. -/
theorem listEnd (hcomma : ¬ (Terminal.mark .comma).Begins tokens)
    (h : Follows lax (.token (.mark .argumentsEnd)) tokens result) :
  Follows lax rule.listRest tokens result
  := by
  apply h.imp
  intro outcome h
  exact .sequence (.done ((Rule.Heads.sequence (.token _)).stuck hcomma)) h

/-- A list that is not empty is followed between the marks of arguments. -/
theorem enclosed (hend : ¬ (Terminal.mark .argumentsEnd).Begins tokens)
    (h : Follows lax (.sequence rule rule.listRest) tokens result) :
  Follows lax rule.enclosed (.mark .argumentsBegin :: tokens) result
  := by
  apply Follows.token (.mark .argumentsBegin)
  apply h.imp
  intro outcome h
  exact h.enterUntil hend

/-- The marks of arguments with nothing between them. -/
theorem enclosed_empty {a : α}
    (hstuck : Predicts rule (.mark .argumentsEnd :: tokens)
      (.stuck (.mark .argumentsEnd :: tokens))) :
  Follows lax rule.enclosed (.mark .argumentsBegin :: .mark .argumentsEnd :: tokens)
    (.ok (a, tokens))
  := by
  have hend : Predicts (.token (.mark .argumentsEnd)) (.mark .argumentsEnd :: tokens)
      (.done tokens) := .token (.mark _) tokens
  have hlist : Predicts (.optional rule.listed) (.mark .argumentsEnd :: tokens)
      (.done (.mark .argumentsEnd :: tokens)) := .right (.sequenceStuck hstuck) (.empty _)
  exact Predicts.sequence (.token (.mark _) _) (.sequence hlist hend)

end Follows

/-! ### Names and marks -/

/-- The fuel outlasts the tokens by the given amount, and their function names are known. -/
structure Ready (funcs : SymbolTable) (extra fuel : Nat) (tokens : List TokenKind) : Prop where
  enough : 10 * tokens.length + extra ≤ fuel
  known : ∀ kind ∈ tokens, Known funcs kind

namespace Ready

variable {funcs : SymbolTable} {extra extra' fuel : Nat} {tokens rest : List TokenKind}

/-- There is fuel if there has to be some left over. -/
theorem not_zero (h : Ready funcs (extra + 1) 0 tokens) :
  False
  := by
  have henough := h.enough
  omega

/-- What is enough for tokens is enough for the tokens behind them. -/
theorem behind (h : Ready funcs extra fuel tokens) (hrest : rest <:+ tokens) :
  Ready funcs extra fuel rest
  := by
  have henough := h.enough
  have hle := hrest.length_le
  constructor
  · omega
  · intro kind hkind
    apply h.known kind (hrest.subset hkind)

/-- One step of the parser, from which less fuel must be left over. -/
theorem step (h : Ready funcs extra (fuel + 1) tokens) (hrest : rest <:+ tokens)
    (hlt : extra' < extra) :
  Ready funcs extra' fuel rest
  := by
  have henough := h.enough
  have hle := hrest.length_le
  constructor
  · omega
  · intro kind hkind
    apply h.known kind (hrest.subset hkind)

/-- One step of the parser that read a token. -/
theorem shorten (h : Ready funcs extra (fuel + 1) tokens) (hrest : rest <:+ tokens)
    (hlt : rest.length < tokens.length) (hle : extra' ≤ extra + 9) :
  Ready funcs extra' fuel rest
  := by
  have henough := h.enough
  constructor
  · omega
  · intro kind hkind
    apply h.known kind (hrest.subset hkind)

/-- One step of the parser that read the first token. -/
theorem tail {kind : TokenKind} (h : Ready funcs extra (fuel + 1) (kind :: tokens))
    (hrest : rest <:+ tokens) (hle : extra' ≤ extra + 9) :
  Ready funcs extra' fuel rest
  := by
  apply h.shorten (hrest.trans (List.suffix_cons kind tokens)) _ hle
  rw [List.length_cons]
  have hlength := hrest.length_le
  omega

end Ready

/-- Tokens that are not a mark and more do not begin with the mark. -/
theorem not_begins_mark {mark : Mark} {tokens : List TokenKind}
    (h : ∀ rest, tokens = .mark mark :: rest → False) :
  ¬ (Terminal.mark mark).Begins tokens
  := by
  rw [Terminal.begins_iff]
  rintro ⟨_, rest, rfl, ⟨⟩⟩
  apply h rest rfl

/-- The parser reads a mark as the rule says. -/
theorem expect_follows (mark : Mark) (tokens : List TokenKind) :
  Follows False (.token (.mark mark)) tokens (expect mark tokens)
  := by
  unfold expect
  split
  · split
    · rename_i hfound
      subst hfound
      exact Predicts.token (.mark _) _
    · rename_i hfound
      apply Follows.missing
      apply Predicts.noToken
      rintro ⟨⟩
      apply hfound rfl
  · rename_i hother
    apply Follows.missing
    apply Predicts.noToken
    rw [Terminal.begins_iff]
    rintro ⟨_, rest, rfl, ⟨⟩⟩
    apply hother mark rest rfl

/-- The parser reads a variable as the rule says. -/
theorem variableName_follows (tokens : List TokenKind) :
  Follows False (.token .variable) tokens (variableName tokens)
  := by
  unfold variableName
  split
  · exact Predicts.token (.variable _) _
  · rename_i hother
    apply Follows.missing
    apply Predicts.noToken
    rw [Terminal.begins_iff]
    rintro ⟨_, rest, rfl, ⟨⟩⟩
    apply hother _ rest rfl

/-- The parser reads a known function name as the rule says. -/
theorem functionName_follows {funcs : SymbolTable} {tokens : List TokenKind}
    (h : ∀ kind ∈ tokens, Known funcs kind) :
  Follows False (.token .functionName) tokens (functionName funcs tokens)
  := by
  unfold functionName
  split
  · rename_i name rest
    have hname : (funcs.lookup? name).isSome :=
      SymbolTable.isSome_lookup?.mpr (h _ List.mem_cons_self name rfl)
    rw [if_pos hname]
    exact Predicts.token (.functionName name) rest
  · rename_i hother
    apply Follows.missing
    apply Predicts.noToken
    rw [Terminal.begins_iff]
    rintro ⟨_, rest, rfl, ⟨⟩⟩
    apply hother _ rest rfl

/-! ### Expressions -/

/-- The reading for a primary expression is stuck at once if the next token begins none. -/
theorem primary_stuck {tokens : List TokenKind}
    (h : ∀ terminal ∈ [.mark .openParen, .math, .input, .number, .variable, .functionName],
      ¬ Terminal.Begins terminal tokens) :
  Predicts (.ref .primary) tokens (.stuck tokens)
  := by
  simp only [List.forall_mem_cons] at h
  obtain ⟨hparen, hmath, hinput, hnumber, hvariable, hcall, -⟩ := h
  apply Predicts.ref
  refine .right (Rule.Heads.stuck (.sequence (.token _)) hparen) ?_
  refine .right (Rule.Heads.stuck (.sequence (.token _)) hmath) ?_
  refine .right (Rule.Heads.stuck (.ref (.sequence (.token _))) hinput) ?_
  apply Predicts.ref
  refine .right (Rule.Heads.stuck (.token _) hnumber) ?_
  refine .right (Rule.Heads.stuck (.token _) hvariable) ?_
  exact Rule.Heads.stuck (.ref (.sequence (.token _))) hcall

/-- The reading for an expression is stuck at once if that for an operand is. -/
theorem expression_stuck {tokens : List TokenKind}
    (h : Predicts (.ref .primary) tokens (.stuck tokens)) :
  Predicts (.ref .expression) tokens (.stuck tokens)
  := .ref (.sequenceStuck (.ref (.sequenceStuck h)))

/-- No mark stands where a comparison operator stands. -/
theorem mark_stuck {mark : Mark} {rule : Rule} {tokens : List TokenKind}
    (hhead : rule.Heads (.mark mark)) (h : Terminal.comparison.Begins tokens) :
  Predicts rule tokens (.stuck tokens)
  := by
  apply hhead.stuck
  obtain ⟨_, rest, rfl, ⟨⟩⟩ := Terminal.begins_iff.mp h
  nofun

section Expressions

variable {funcs : SymbolTable}

mutual

/-- The parser follows the rule for comparisons, except that it reports a second comparison operator
at once. -/
theorem comparison_follows :
  ∀ (fuel : Nat) {tokens : List TokenKind}, Ready funcs 4 fuel tokens →
    Follows True (.ref .comparison) tokens (comparison funcs fuel tokens)
  | 0, _, h => by cases h.not_zero
  | fuel + 1, tokens, h => by
      unfold comparison
      apply Follows.ref
      apply (expression_follows fuel (h.step (List.suffix_refl _) (by decide))).bind
      intro left middle hleft
      dsimp only
      split
      · rename_i op rest
        refine Follows.enter (.sequence (.token _)) (.comparison op) ?_
        apply Follows.token (.comparison op)
        have hrest : rest <:+ tokens := (List.suffix_cons _ _).trans hleft.suffix
        apply (expression_follows fuel (h.step hrest (by decide))).weaken.finish
        intro right stop
        dsimp only
        split
        · -- the operator that is reported is the first token that is left
          rename_i second after
          exact ⟨by rintro _ ⟨⟩; exact ⟨after, rfl⟩, .inr ⟨trivial, .empty _, .comparison second⟩⟩
        · exact Predicts.empty stop
      · rename_i hother
        apply Predicts.right _ (.empty middle)
        apply Rule.Heads.stuck (.sequence (.token _))
        rw [Terminal.begins_iff]
        rintro ⟨_, rest, rfl, ⟨⟩⟩
        apply hother _ rest rfl

/-- The parser follows the rule for expressions. -/
theorem expression_follows :
  ∀ (fuel : Nat) {tokens : List TokenKind}, Ready funcs 3 fuel tokens →
    Follows False (.ref .expression) tokens (expression funcs fuel tokens)
  | 0, _, h => by cases h.not_zero
  | fuel + 1, tokens, h => by
      unfold expression
      apply Follows.ref
      apply (term_follows fuel (h.step (List.suffix_refl _) (by decide))).bind
      intro left middle hleft
      apply moreTerms_follows fuel left (h.step hleft.suffix (by decide))

/-- The parser follows what an expression has behind its first term. -/
theorem moreTerms_follows :
  ∀ (fuel : Nat) (left : Expr) {tokens : List TokenKind}, Ready funcs 1 fuel tokens →
    Follows False (.repeated (.sequence (.token .additive) (.ref .term))) tokens
      (moreTerms funcs fuel left tokens)
  | 0, _, _, h => by cases h.not_zero
  | fuel + 1, left, tokens, h => by
      unfold moreTerms
      split
      · rename_i op rest
        split
        · rename_i hop
          apply Follows.unroll (.additive hop)
          apply (term_follows fuel (h.tail (List.suffix_refl _) (by decide))).bind
          intro right middle hright
          apply moreTerms_follows fuel _ (h.tail hright.suffix (by decide))
        · rename_i hop
          apply Predicts.done
          apply Rule.Heads.stuck (.sequence (.token _))
          rintro ⟨⟩
          contradiction
      · rename_i hother
        apply Predicts.done
        apply Rule.Heads.stuck (.sequence (.token _))
        rw [Terminal.begins_iff]
        rintro ⟨_, rest, rfl, ⟨⟩⟩
        apply hother _ rest rfl

/-- The parser follows the rule for terms. -/
theorem term_follows :
  ∀ (fuel : Nat) {tokens : List TokenKind}, Ready funcs 2 fuel tokens →
    Follows False (.ref .term) tokens (term funcs fuel tokens)
  | 0, _, h => by cases h.not_zero
  | fuel + 1, tokens, h => by
      unfold term
      apply Follows.ref
      apply (primary_follows fuel (h.step (List.suffix_refl _) (by decide))).bind
      intro left middle hleft
      apply moreFactors_follows fuel left (h.step hleft.suffix (by decide))

/-- The parser follows what a term has behind its first factor. -/
theorem moreFactors_follows :
  ∀ (fuel : Nat) (left : Expr) {tokens : List TokenKind}, Ready funcs 1 fuel tokens →
    Follows False (.repeated (.sequence (.token .multiplicative) (.ref .primary))) tokens
      (moreFactors funcs fuel left tokens)
  | 0, _, _, h => by cases h.not_zero
  | fuel + 1, left, tokens, h => by
      unfold moreFactors
      split
      · rename_i op rest
        split
        · rename_i hop
          apply Follows.unroll (.multiplicative hop)
          apply (primary_follows fuel (h.tail (List.suffix_refl _) (by decide))).bind
          intro right middle hright
          apply moreFactors_follows fuel _ (h.tail hright.suffix (by decide))
        · rename_i hop
          apply Predicts.done
          apply Rule.Heads.stuck (.sequence (.token _))
          rintro ⟨⟩
          contradiction
      · rename_i hother
        apply Predicts.done
        apply Rule.Heads.stuck (.sequence (.token _))
        rw [Terminal.begins_iff]
        rintro ⟨_, rest, rfl, ⟨⟩⟩
        apply hother _ rest rfl

/-- The parser follows the rule for operands. -/
theorem primary_follows :
  ∀ (fuel : Nat) {tokens : List TokenKind}, Ready funcs 1 fuel tokens →
    Follows False (.ref .primary) tokens (primary funcs fuel tokens)
  | 0, _, h => by cases h.not_zero
  | fuel + 1, tokens, h => by
      unfold primary
      split
      · apply Follows.ref
        refine Follows.enter (.sequence (.token _)) (.mark _) ?_
        apply Follows.token (.mark _)
        apply (comparison_follows fuel (h.tail (List.suffix_refl _) (by decide))).bind_lax
        · exact mark_stuck (.token _)
        · intro inner middle hinner
          exact (expect_follows .closeParen middle).map fun _ _ => ⟨_, rfl⟩
      · rename_i op rest
        apply Follows.ref
        refine Follows.skip (.sequence (.token _)) nofun ?_
        refine Follows.enter (.sequence (.token _)) (.math op) ?_
        apply Follows.token (.math op)
        exact (expression_follows fuel (h.tail (List.suffix_refl _) (by decide))).map
          fun _ _ => ⟨_, rfl⟩
      · apply Follows.ref
        refine Follows.skip (.sequence (.token _)) nofun ?_
        refine Follows.skip (.sequence (.token _)) nofun ?_
        refine Follows.enter (.ref (.sequence (.token _))) .input ?_
        apply Follows.ref
        apply Follows.token .input
        exact (variableName_follows _).map fun _ _ => ⟨_, rfl⟩
      · rename_i value rest
        apply Predicts.ref
        refine .right (Rule.Heads.stuck (.sequence (.token _)) nofun) ?_
        refine .right (Rule.Heads.stuck (.sequence (.token _)) nofun) ?_
        refine .right (Rule.Heads.stuck (.ref (.sequence (.token _))) nofun) ?_
        exact .ref (.left (.token (.number value) rest) nofun)
      · rename_i name rest
        apply Predicts.ref
        refine .right (Rule.Heads.stuck (.sequence (.token _)) nofun) ?_
        refine .right (Rule.Heads.stuck (.sequence (.token _)) nofun) ?_
        refine .right (Rule.Heads.stuck (.ref (.sequence (.token _))) nofun) ?_
        exact .ref (.right (.noToken nofun) (.left (.token (.variable name) rest) nofun))
      · apply Follows.ref
        refine Follows.skip (.sequence (.token _)) nofun ?_
        refine Follows.skip (.sequence (.token _)) nofun ?_
        refine Follows.skip (.ref (.sequence (.token _))) nofun ?_
        apply Follows.ref
        refine Follows.skip (.token _) nofun ?_
        refine Follows.skip (.token _) nofun ?_
        apply Follows.ref
        apply (functionName_follows h.known).bind
        intro function middle hfunction
        have hlt := hfunction.length_lt rfl
        exact (arguments_follows fuel (h.shorten hfunction.suffix hlt (by decide))).map
          fun _ _ => ⟨_, rfl⟩
      · rename_i hparen hmath hinput hnumber hvariable hcall
        apply Follows.missing
        apply primary_stuck
        intro terminal hmem hbegins
        obtain ⟨kind, rest, rfl, hkind⟩ := Terminal.begins_iff.mp hbegins
        simp only [List.mem_cons, List.not_mem_nil, or_false] at hmem
        rcases hmem with rfl | rfl | rfl | rfl | rfl | rfl <;> cases hkind
        exacts [hparen _ rfl, hmath _ _ rfl, hinput _ rfl, hnumber _ _ rfl, hvariable _ _ rfl,
          hcall _ _ rfl]

/-- The parser follows the rule for arguments, which may be left out. -/
theorem arguments_follows :
  ∀ (fuel : Nat) {tokens : List TokenKind}, Ready funcs 1 fuel tokens →
    Follows False (.optional (.ref .arguments)) tokens (arguments funcs fuel tokens)
  | 0, _, h => by cases h.not_zero
  | fuel + 1, tokens, h => by
      unfold arguments
      split
      · refine Follows.enter (.ref (.sequence (.token _))) (.mark _) ?_
        apply Follows.ref
        apply Follows.enclosed_empty
        apply expression_stuck
        apply primary_stuck
        simp only [List.forall_mem_cons]
        exact ⟨nofun, nofun, nofun, nofun, nofun, nofun, nofun⟩
      · rename_i rest hother
        refine Follows.enter (.ref (.sequence (.token _))) (.mark _) ?_
        apply Follows.ref
        apply Follows.enclosed
        · exact not_begins_mark hother
        · apply (expression_follows fuel (h.tail (List.suffix_refl _) (by decide))).bind
          intro argument middle hargument
          exact (moreArguments_follows fuel (h.tail hargument.suffix (by decide))).map
            fun _ _ => ⟨_, rfl⟩
      · rename_i hother
        apply Predicts.right _ (.empty tokens)
        exact Rule.Heads.stuck (.ref (.sequence (.token _))) (not_begins_mark hother)

/-- The parser follows what arguments have behind the first one. -/
theorem moreArguments_follows :
  ∀ (fuel : Nat) {tokens : List TokenKind}, Ready funcs 1 fuel tokens →
    Follows False (Rule.ref .expression).listRest tokens (moreArguments funcs fuel tokens)
  | 0, _, h => by cases h.not_zero
  | fuel + 1, tokens, h => by
      unfold moreArguments
      split
      · apply Follows.listRest
        apply (expression_follows fuel (h.tail (List.suffix_refl _) (by decide))).bind
        intro argument middle hargument
        exact (moreArguments_follows fuel (h.tail hargument.suffix (by decide))).map
          fun _ _ => ⟨_, rfl⟩
      · rename_i hother
        apply Follows.listEnd
        · exact not_begins_mark hother
        · exact (expect_follows .argumentsEnd tokens).map fun _ _ => ⟨_, rfl⟩

end

/-- An expression is missed at an operator that only makes statements, and the parser gets past
every other operator that stands where an expression begins. -/
theorem primary_eq_missing_iff {fuel : Nat} {op : UnaryOp} {rest : List TokenKind}
    (h : Ready funcs 1 fuel (.unary op :: rest)) :
  primary funcs fuel (.unary op :: rest) = missing .expression (.unary op :: rest)
    ↔ op.isStatementOnly
  := by
  cases fuel with
  | zero => cases h.not_zero
  | succ fuel =>
    cases op with
    | output op => exact iff_of_true rfl rfl
    | ret => exact iff_of_true rfl rfl
    | math op =>
      have hoperand := expression_follows fuel (h.tail (List.suffix_refl rest) (by decide))
      refine iff_of_false ?_ Bool.false_ne_true
      rw [primary]
      apply Follows.ne_missing
      exact hoperand.map fun _ _ => ⟨_, rfl⟩
    | input =>
      refine iff_of_false ?_ Bool.false_ne_true
      rw [primary]
      apply Follows.ne_missing
      exact (variableName_follows rest).map fun _ _ => ⟨_, rfl⟩

end Expressions

/-! ### Statements -/

/-- The reading for a statement is stuck at once if the next token begins none. -/
theorem statement_stuck {tokens : List TokenKind}
    (h : ∀ terminal ∈ [.assign, .branch, .loop, .functionName, .ret, .output, .input],
      ¬ Terminal.Begins terminal tokens) :
  Predicts
    (.any (.ref .assign)
      [.ref .branch, .ref .loop, .ref .call, .ref .ret, .ref .output, .ref .input])
    tokens (.stuck tokens)
  := by
  simp only [List.forall_mem_cons] at h
  obtain ⟨hassign, hbranch, hloop, hcall, hret, houtput, hinput, -⟩ := h
  refine .right (Rule.Heads.stuck (.ref (.sequence (.token _))) hassign) ?_
  refine .right (Rule.Heads.stuck (.ref (.sequence (.token _))) hbranch) ?_
  refine .right (Rule.Heads.stuck (.ref (.sequence (.token _))) hloop) ?_
  refine .right (Rule.Heads.stuck (.ref (.sequence (.token _))) hcall) ?_
  refine .right (Rule.Heads.stuck (.ref (.sequence (.token _))) hret) ?_
  refine .right (Rule.Heads.stuck (.ref (.sequence (.token _))) houtput) ?_
  exact Rule.Heads.stuck (.ref (.sequence (.token _))) hinput

section Statements

variable {funcs : SymbolTable}

mutual

/-- The parser follows the rule for bodies. -/
theorem body_follows :
  ∀ (fuel : Nat) {tokens : List TokenKind}, Ready funcs 3 fuel tokens →
    Follows False (.ref .body) tokens (body funcs fuel tokens)
  | 0, _, h => by cases h.not_zero
  | fuel + 1, tokens, h => by
      unfold body
      apply Follows.ref
      apply (expect_follows .openBrace tokens).bind
      intro _ middle hopen
      apply statements_follows fuel (h.step hopen.suffix (by decide))

/-- The parser follows what a body has behind its opening brace. -/
theorem statements_follows :
  ∀ (fuel : Nat) {tokens : List TokenKind}, Ready funcs 2 fuel tokens →
    Follows False (.sequence (.repeated (.ref .statement)) (.token (.mark .closeBrace))) tokens
      (statements funcs fuel tokens)
  | 0, _, h => by cases h.not_zero
  | fuel + 1, tokens, h => by
      unfold statements
      split
      · rename_i rest
        refine Predicts.sequence (.done (.ref (.sequenceStuck (statement_stuck ?_))))
          (.token (.mark _) rest)
        simp only [List.forall_mem_cons]
        exact ⟨nofun, nofun, nofun, nofun, nofun, nofun, nofun, nofun⟩
      · rename_i hother
        have hclose : ¬ (Terminal.mark .closeBrace).Begins tokens :=
          not_begins_mark hother
        refine Follows.unrollUntil rfl hclose ?_
        apply (statement_follows fuel (h.step (List.suffix_refl _) (by decide))).bind_lax
        · exact mark_stuck (.sequence (.token _))
        · intro statement middle hstatement
          apply (expect_follows .separator middle).bind
          intro _ stop hseparator
          have hlt := Nat.lt_of_lt_of_le (hseparator.length_lt rfl) hstatement.suffix.length_le
          have hstop := hseparator.suffix.trans hstatement.suffix
          exact (statements_follows fuel (h.shorten hstop hlt (by decide))).map fun _ _ => ⟨_, rfl⟩

/-- The parser follows the rules for statements, except that it reports a second comparison operator
at once. -/
theorem statement_follows :
  ∀ (fuel : Nat) {tokens : List TokenKind}, Ready funcs 1 fuel tokens →
    Follows True
      (.any (.ref .assign)
        [.ref .branch, .ref .loop, .ref .call, .ref .ret, .ref .output, .ref .input])
      tokens (statement funcs fuel tokens)
  | 0, _, h => by cases h.not_zero
  | fuel + 1, tokens, h => by
      unfold statement
      split
      · refine Follows.enter (.ref (.sequence (.token _))) .assign ?_
        apply Follows.ref
        apply Follows.token .assign
        apply (variableName_follows _).bind
        intro target middle htarget
        apply (expect_follows .assignEnd middle).bind
        intro _ rest hmark
        have hrest := hmark.suffix.trans htarget.suffix
        exact (comparison_follows fuel (h.tail hrest (by decide))).map fun _ _ => ⟨_, rfl⟩
      · refine Follows.skip (.ref (.sequence (.token _))) nofun ?_
        refine Follows.enter (.ref (.sequence (.token _))) .branch ?_
        apply Follows.ref
        apply Follows.token .branch
        apply (primary_follows fuel (h.tail (List.suffix_refl _) (by decide))).bind
        intro condition middle hcondition
        apply (body_follows fuel (h.tail hcondition.suffix (by decide))).bind
        intro consequence stop hconsequence
        have hstop := hconsequence.suffix.trans hcondition.suffix
        exact (alternative_follows fuel (h.tail hstop (by decide))).weaken.map fun _ _ => ⟨_, rfl⟩
      · iterate 2 refine Follows.skip (.ref (.sequence (.token _))) nofun ?_
        refine Follows.enter (.ref (.sequence (.token _))) .loop ?_
        apply Follows.ref
        apply Follows.token .loop
        apply (primary_follows fuel (h.tail (List.suffix_refl _) (by decide))).bind
        intro condition middle hcondition
        exact (body_follows fuel (h.tail hcondition.suffix (by decide))).weaken.map
          fun _ _ => ⟨_, rfl⟩
      · rename_i name rest
        iterate 3 refine Follows.skip (.ref (.sequence (.token _))) nofun ?_
        refine Follows.enter (.ref (.sequence (.token _))) (.functionName name) ?_
        apply Follows.ref
        apply (functionName_follows h.known).bind
        intro function middle hfunction
        have hlt := hfunction.length_lt rfl
        exact (arguments_follows fuel (h.shorten hfunction.suffix hlt (by decide))).weaken.map
          fun _ _ => ⟨_, rfl⟩
      · iterate 4 refine Follows.skip (.ref (.sequence (.token _))) nofun ?_
        refine Follows.enter (.ref (.sequence (.token _))) .ret ?_
        apply Follows.ref
        apply Follows.token .ret
        exact (comparison_follows fuel (h.tail (List.suffix_refl _) (by decide))).map
          fun _ _ => ⟨_, rfl⟩
      · rename_i op rest
        iterate 5 refine Follows.skip (.ref (.sequence (.token _))) nofun ?_
        refine Follows.enter (.ref (.sequence (.token _))) (.output op) ?_
        apply Follows.ref
        apply Follows.token (.output op)
        exact (expression_follows fuel (h.tail (List.suffix_refl _) (by decide))).weaken.map
          fun _ _ => ⟨_, rfl⟩
      · iterate 6 refine Follows.skip (.ref (.sequence (.token _))) nofun ?_
        apply Follows.ref
        apply Follows.token .input
        exact (variableName_follows _).weaken.map fun _ _ => ⟨_, rfl⟩
      · rename_i hassign hbranch hloop hcall hret houtput hinput
        apply Follows.missing
        apply statement_stuck
        intro terminal hmem hbegins
        obtain ⟨kind, rest, rfl, hkind⟩ := Terminal.begins_iff.mp hbegins
        simp only [List.mem_cons, List.not_mem_nil, or_false] at hmem
        rcases hmem with rfl | rfl | rfl | rfl | rfl | rfl | rfl <;> cases hkind
        exacts [hassign _ rfl, hbranch _ rfl, hloop _ rfl, hcall _ _ rfl, hret _ rfl,
          houtput _ _ rfl, hinput _ rfl]

/-- The parser follows the rule for a second body, which may be left out. -/
theorem alternative_follows :
  ∀ (fuel : Nat) {tokens : List TokenKind}, Ready funcs 4 fuel tokens →
    Follows False (.optional (.ref .body)) tokens (alternative funcs fuel tokens)
  | 0, _, h => by cases h.not_zero
  | fuel + 1, tokens, h => by
      unfold alternative
      split
      · refine Follows.enter (.ref (.sequence (.token _))) (.mark _) ?_
        apply body_follows fuel (h.step (List.suffix_refl _) (by decide))
      · rename_i hother
        apply Predicts.right _ (.empty tokens)
        exact Rule.Heads.stuck (.ref (.sequence (.token _))) (not_begins_mark hother)

end

end Statements

/-! ### Functions -/

/-- The parser follows what parameters have behind the first one. -/
theorem moreParameters_follows (tokens : List TokenKind) :
  Follows False (Rule.token .variable).listRest tokens (moreParameters tokens)
  := by
  fun_induction moreParameters tokens with
  | case1 name rest ih =>
    apply Follows.listRest
    apply Follows.token (.variable name)
    exact ih.map fun _ _ => ⟨_, rfl⟩
  | case2 rest hother =>
    apply Follows.listRest
    apply Follows.missing
    apply Predicts.sequenceStuck
    apply Predicts.noToken
    rw [Terminal.begins_iff]
    rintro ⟨_, after, rfl, ⟨⟩⟩
    apply hother _ after rfl
  | case3 tokens hvariable hother =>
    apply Follows.listEnd
    · exact not_begins_mark hother
    · exact (expect_follows .argumentsEnd tokens).map fun _ _ => ⟨_, rfl⟩

/-- The parser follows the rule for parameters, which may be left out. -/
theorem parameters_follows (tokens : List TokenKind) :
  Follows False (.optional (.ref .parameters)) tokens (parameters tokens)
  := by
  unfold parameters
  split
  · refine Follows.enter (.ref (.sequence (.token _))) (.mark _) ?_
    apply Follows.ref
    apply Follows.enclosed_empty
    apply Predicts.noToken
    nofun
  · rename_i rest hother
    refine Follows.enter (.ref (.sequence (.token _))) (.mark _) ?_
    apply Follows.ref
    apply Follows.enclosed
    · exact not_begins_mark hother
    · apply (variableName_follows rest).bind
      intro name middle hname
      exact (moreParameters_follows middle).map fun _ _ => ⟨_, rfl⟩
  · rename_i hother
    apply Predicts.right _ (.empty tokens)
    exact Rule.Heads.stuck (.ref (.sequence (.token _))) (not_begins_mark hother)

section Programs

variable {funcs : SymbolTable}

/-- The parser follows the rule for functions. -/
theorem definition_follows {fuel : Nat} {tokens : List TokenKind} (h : Ready funcs 3 fuel tokens) :
  Follows False (.ref .function) tokens (definition funcs fuel tokens)
  := by
  unfold definition
  apply Follows.ref
  apply (expect_follows .define tokens).bind
  intro _ behindDefine hdefine
  have h := h.behind hdefine.suffix
  apply (functionName_follows h.known).bind
  intro name behindName hname
  have h := h.behind hname.suffix
  apply (parameters_follows behindName).bind
  intro names behindParameters hparameters
  have h := h.behind hparameters.suffix
  exact (body_follows fuel h).map fun _ _ => ⟨_, rfl⟩

/-- Tokens without an end mark are read for the rule up to where the parser ends or fails. -/
def Halts {α : Type} (rule : Rule) (tokens : List TokenKind) : Except Mismatch α → Prop
  | .ok _ => Predicts rule tokens (.stuck [])
  | .error mismatch => mismatch.Points ∧ Predicts rule tokens (.stuck mismatch.rest)

namespace Halts

variable {α β : Type} {rule rule' first second : Rule} {tokens : List TokenKind}

/-- The parser halts as another rule says if the tokens are read alike for both. -/
theorem imp {result : Except Mismatch α} (h : Halts rule tokens result)
    (himp : ∀ {outcome}, Predicts rule tokens outcome → Predicts rule' tokens outcome) :
  Halts rule' tokens result
  := by
  match result, h with
  | .ok _, h => exact himp h
  | .error _, ⟨hpoints, h⟩ => exact ⟨hpoints, himp h⟩

/-- One rule after the other, where the second one is the last. -/
theorem bind {x : Except Mismatch (α × List TokenKind)}
    {f : α × List TokenKind → Except Mismatch β} (hx : Follows False first tokens x)
    (hf : ∀ a middle, Predicts first tokens (.done middle) →
      Halts second middle (f (a, middle))) :
  Halts (.sequence first second) tokens (x >>= f)
  := by
  match x, hx with
  | .error _, ⟨hpoints, .inl hx⟩ => exact ⟨hpoints, .sequenceStuck hx⟩
  | .ok (a, middle), hx =>
    have hsecond := hf a middle hx
    change Halts (.sequence first second) tokens (f (a, middle))
    revert hsecond
    generalize f (a, middle) = result
    intro hsecond
    match result, hsecond with
    | .ok _, h => exact .sequence hx h
    | .error _, ⟨hpoints, h⟩ => exact ⟨hpoints, .sequence hx h⟩

/-- What is made of the result does not change where the parser halts. -/
theorem finish {x : Except Mismatch α} {f : α → Except Mismatch β} (hx : Halts rule tokens x)
    (hf : ∀ a, ∃ b, f a = .ok b) :
  Halts rule tokens (x >>= f)
  := by
  match x, hx with
  | .error _, hx => exact hx
  | .ok a, hx =>
    obtain ⟨b, hb⟩ := hf a
    change Halts rule tokens (f a)
    rw [hb]
    exact hx

end Halts

/-- The parser halts as the rule for functions up to the end of the input says. -/
theorem definitions_halts :
  ∀ (fuel : Nat) {tokens : List TokenKind}, Ready funcs 4 fuel tokens → .endOfInput ∉ tokens →
    Halts (.sequence (.repeated (.ref .function)) (.token (.mark .endOfInput))) tokens
      (definitions funcs fuel tokens)
  | 0, _, h, _ => by cases h.not_zero
  | fuel + 1, tokens, h, hend => by
      unfold definitions
      split
      · refine Predicts.sequence (.done ?_) (.noToken nofun)
        exact Rule.Heads.stuck (.ref (.sequence (.token _))) nofun
      · have hlast : ¬ (Terminal.mark .endOfInput).Begins tokens := by
          rw [Terminal.begins_iff]
          rintro ⟨_, rest, rfl, ⟨⟩⟩
          apply hend List.mem_cons_self
        apply Halts.imp _ fun h => h.unrollUntil hlast
        apply Halts.bind (definition_follows (h.step (List.suffix_refl _) (by decide)))
        intro first middle hfirst
        have hmiddle : Ready funcs 4 fuel middle :=
          h.shorten hfirst.suffix (hfirst.length_lt rfl) (by decide)
        apply (definitions_halts fuel hmiddle _).finish
        · intro others
          exact ⟨_, rfl⟩
        · intro hmem
          apply hend (hfirst.suffix.subset hmem)

/-- The parser halts as the rule for programs says. -/
theorem program_halts {tokens : List TokenKind} (hknown : ∀ kind ∈ tokens, Known funcs kind)
    (hend : .endOfInput ∉ tokens) :
  Halts (.ref .program) tokens (program funcs tokens)
  := by
  have hready : Ready funcs 4 (fuel tokens) tokens := ⟨by rw [fuel]; omega, hknown⟩
  unfold program
  apply Halts.imp _ .ref
  apply Halts.bind (definition_follows ⟨by rw [fuel]; omega, hknown⟩)
  intro first middle hfirst
  apply (definitions_halts _ (hready.behind hfirst.suffix) _).finish
  · intro others
    exact ⟨_, rfl⟩
  · intro hmem
    apply hend (hfirst.suffix.subset hmem)

end Programs

end Parse

end StackCompiler
