import StackCompiler.Proofs.Program.Grammar

/-!
# Reading by prediction

How tokens are read for a rule if no choice is ever taken back.  An alternative is passed over, and
a repetition ends, only where the next token cannot be read.  The reading ends behind what it reads,
or it is stuck in front of a token that does not fit.

What is read before it is stuck can always be completed (`Predicts.viable`).  The reading looks at
no token behind the one where it ends, so it does not change if these are exchanged
(`Predicts.exchange`).
-/

namespace StackCompiler

namespace Grammar

/-- How the reading for a rule ends: behind what it reads, or in front of a token that does not
fit. -/
inductive Outcome where
  | done (rest : List TokenKind)
  | stuck (rest : List TokenKind)

namespace Outcome

/-- The tokens that are left. -/
def rest : Outcome → List TokenKind
  | done rest => rest
  | stuck rest => rest

/-- The same end with other tokens left. -/
def withRest (outcome : Outcome) (rest : List TokenKind) : Outcome :=
  match outcome with
  | done _ => done rest
  | stuck _ => stuck rest

end Outcome

/-- The first token is one of the class. -/
def Terminal.Begins (terminal : Terminal) : List TokenKind → Prop
  | [] => False
  | kind :: _ => terminal.Matches kind

/-- A terminal begins tokens if it matches the first one. -/
theorem Terminal.begins_iff {terminal : Terminal} {tokens : List TokenKind} :
  terminal.Begins tokens ↔ ∃ kind rest, tokens = kind :: rest ∧ terminal.Matches kind
  := by
  cases tokens with
  | nil => simp [Begins]
  | cons kind rest => simp [Begins]

/-- Reading the tokens for the rule has the given outcome. -/
inductive Predicts : Rule → List TokenKind → Outcome → Prop where
  | empty (tokens : List TokenKind) : Predicts .empty tokens (.done tokens)
  | token {terminal : Terminal} {kind : TokenKind} (h : terminal.Matches kind)
      (rest : List TokenKind) : Predicts (.token terminal) (kind :: rest) (.done rest)
  | noToken {terminal : Terminal} {tokens : List TokenKind} (h : ¬ terminal.Begins tokens) :
      Predicts (.token terminal) tokens (.stuck tokens)
  | ref {nonterminal : Nonterminal} {tokens : List TokenKind} {outcome : Outcome}
      (h : Predicts (rules nonterminal) tokens outcome) : Predicts (.ref nonterminal) tokens outcome
  | sequence {first second : Rule} {tokens middle : List TokenKind} {outcome : Outcome}
      (h : Predicts first tokens (.done middle)) (h' : Predicts second middle outcome) :
      Predicts (.sequence first second) tokens outcome
  | sequenceStuck {first second : Rule} {tokens rest : List TokenKind}
      (h : Predicts first tokens (.stuck rest)) :
      Predicts (.sequence first second) tokens (.stuck rest)
  | left {first second : Rule} {tokens : List TokenKind} {outcome : Outcome}
      (h : Predicts first tokens outcome) (hreads : outcome ≠ .stuck tokens) :
      Predicts (.choice first second) tokens outcome
  | right {first second : Rule} {tokens : List TokenKind} {outcome : Outcome}
      (h : Predicts first tokens (.stuck tokens)) (h' : Predicts second tokens outcome) :
      Predicts (.choice first second) tokens outcome
  | done {rule : Rule} {tokens : List TokenKind} (h : Predicts rule tokens (.stuck tokens)) :
      Predicts (.repeated rule) tokens (.done tokens)
  | again {rule : Rule} {tokens middle : List TokenKind} {outcome : Outcome}
      (h : Predicts rule tokens (.done middle)) (h' : Predicts (.repeated rule) middle outcome) :
      Predicts (.repeated rule) tokens outcome
  | againStuck {rule : Rule} {tokens rest : List TokenKind} (h : Predicts rule tokens (.stuck rest))
      (hreads : rest ≠ tokens) : Predicts (.repeated rule) tokens (.stuck rest)

/-! ### Completion -/

/-- Some token matches a terminal. -/
theorem Terminal.exists_matches (terminal : Terminal) :
  ∃ kind, terminal.Matches kind
  := by
  cases terminal with
  | mark mark => exact ⟨_, .mark mark⟩
  | functionName => exact ⟨_, .functionName ""⟩
  | «variable» => exact ⟨_, .variable ""⟩
  | number => exact ⟨_, .number (.ofNat 0)⟩
  | assign => exact ⟨_, .assign⟩
  | branch => exact ⟨_, .branch⟩
  | loop => exact ⟨_, .loop⟩
  | ret => exact ⟨_, .ret⟩
  | output => exact ⟨_, .output .out⟩
  | input => exact ⟨_, .input⟩
  | math => exact ⟨_, .math .sin⟩
  | comparison => exact ⟨_, .comparison .eq⟩
  | additive => exact ⟨_, @Matches.additive .add rfl⟩
  | multiplicative => exact ⟨_, @Matches.multiplicative .mul rfl⟩

/-- Some token list is derived from the rule. -/
def Rule.IsProductive (rule : Rule) : Prop :=
  ∃ tokens, Derives rule tokens

namespace Rule.IsProductive

variable {first second rule : Rule}

theorem token (terminal : Terminal) :
  (Rule.token terminal).IsProductive
  := by
  obtain ⟨kind, hkind⟩ := terminal.exists_matches
  exact ⟨[kind], .token hkind⟩

/-- Two rules in sequence can be completed if each of them can. -/
theorem sequence (h : first.IsProductive) (h' : second.IsProductive) :
  (Rule.sequence first second).IsProductive
  := by
  obtain ⟨tokens, htokens⟩ := h
  obtain ⟨tokens', htokens'⟩ := h'
  exact ⟨tokens ++ tokens', .sequence htokens htokens'⟩

/-- A choice can be completed if its first alternative can. -/
theorem left (h : first.IsProductive) :
  (Rule.choice first second).IsProductive
  := by
  obtain ⟨tokens, htokens⟩ := h
  exact ⟨tokens, .left htokens⟩

/-- A choice can be completed if its second alternative can. -/
theorem right (h : second.IsProductive) :
  (Rule.choice first second).IsProductive
  := by
  obtain ⟨tokens, htokens⟩ := h
  exact ⟨tokens, .right htokens⟩

theorem optional (rule : Rule) :
  (Rule.optional rule).IsProductive
  := ⟨[], .right .empty⟩

theorem repeated (rule : Rule) :
  (Rule.repeated rule).IsProductive
  := ⟨[], .done⟩

/-- A nonterminal can be completed if its rule can. -/
theorem ref {nonterminal : Nonterminal} (h : (rules nonterminal).IsProductive) :
  (Rule.ref nonterminal).IsProductive
  := by
  obtain ⟨tokens, htokens⟩ := h
  exact ⟨tokens, .ref htokens⟩

/-- A list between the marks of arguments can be completed without items. -/
theorem enclosed (rule : Rule) :
  (Rule.enclosed rule).IsProductive
  := (token _).sequence ((optional _).sequence (token _))

end Rule.IsProductive

open Rule.IsProductive in
/-- Some token list is derived from every nonterminal. -/
theorem Nonterminal.isProductive (nonterminal : Nonterminal) :
  (Rule.ref nonterminal).IsProductive
  := by
  have hcall : (Rule.ref .call).IsProductive := ref ((token _).sequence (optional _))
  have hvalue : (Rule.ref .value).IsProductive := ref (left (token _))
  have hinput : (Rule.ref .input).IsProductive := ref ((token _).sequence (token _))
  have hprimary : (Rule.ref .primary).IsProductive := ref (right (right (right hvalue)))
  have hterm : (Rule.ref .term).IsProductive := ref (hprimary.sequence (repeated _))
  have hexpression : (Rule.ref .expression).IsProductive := ref (hterm.sequence (repeated _))
  have hcomparison : (Rule.ref .comparison).IsProductive :=
    ref (hexpression.sequence (optional _))
  have hassign : (Rule.ref .assign).IsProductive :=
    ref ((token _).sequence ((token _).sequence ((token _).sequence hcomparison)))
  have hbody : (Rule.ref .body).IsProductive :=
    ref ((token _).sequence ((repeated _).sequence (token _)))
  have hfunction : (Rule.ref .function).IsProductive :=
    ref ((token _).sequence ((token _).sequence ((optional _).sequence hbody)))
  cases nonterminal with
  | program => exact ref (hfunction.sequence ((repeated _).sequence (token _)))
  | function => exact hfunction
  | parameters => exact ref (enclosed _)
  | body => exact hbody
  | statement => exact ref ((left hassign).sequence (token _))
  | assign => exact hassign
  | branch => exact ref ((token _).sequence (hprimary.sequence (hbody.sequence (optional _))))
  | loop => exact ref ((token _).sequence (hprimary.sequence hbody))
  | call => exact hcall
  | arguments => exact ref (enclosed _)
  | ret => exact ref ((token _).sequence hcomparison)
  | output => exact ref ((token _).sequence hexpression)
  | input => exact hinput
  | comparison => exact hcomparison
  | expression => exact hexpression
  | term => exact hterm
  | primary => exact hprimary
  | value => exact hvalue

/-- Every rule can be completed. -/
theorem Rule.isProductive (rule : Rule) :
  rule.IsProductive
  := by
  induction rule with
  | empty => exact ⟨[], .empty⟩
  | token terminal => apply IsProductive.token
  | ref nonterminal => apply nonterminal.isProductive
  | sequence first second ih ih' => apply ih.sequence ih'
  | choice first second ih ih' => apply ih.left
  | repeated rule ih => apply IsProductive.repeated

namespace Predicts

variable {rule : Rule} {tokens rest : List TokenKind} {outcome : Outcome}

/-- What is read up to the end of a rule is derived from it. -/
theorem yields (h : Predicts rule tokens (.done rest)) :
  Yields rule tokens rest
  := by
  generalize houtcome : Outcome.done rest = outcome at h
  induction h generalizing rest with
  | empty tokens =>
    cases houtcome
    apply Yields.empty
  | token h rest =>
    cases houtcome
    apply Yields.token h
  | noToken h => cases houtcome
  | ref h ih => apply (ih houtcome).ref
  | sequence h h' ih ih' => apply (ih rfl).sequence (ih' houtcome)
  | sequenceStuck h ih => cases houtcome
  | left h hreads ih => apply (ih houtcome).left
  | right h h' ih ih' => apply (ih' houtcome).right
  | done h ih =>
    cases houtcome
    apply Yields.done
  | again h h' ih ih' => apply (ih rfl).again (ih' houtcome)
  | againStuck h hreads ih => cases houtcome

/-- What is read before a reading is stuck can be completed. -/
theorem viable (h : Predicts rule tokens (.stuck rest)) :
  ∃ used more, tokens = used ++ rest ∧ Derives rule (used ++ more)
  := by
  generalize houtcome : Outcome.stuck rest = outcome at h
  induction h generalizing rest with
  | empty tokens => cases houtcome
  | token h rest => cases houtcome
  | @noToken terminal tokens h =>
    cases houtcome
    obtain ⟨more, hmore⟩ := (Rule.token terminal).isProductive
    exact ⟨[], more, rfl, hmore⟩
  | ref h ih =>
    obtain ⟨used, more, rfl, hderives⟩ := ih houtcome
    exact ⟨used, more, rfl, .ref hderives⟩
  | sequence h h' ih ih' =>
    obtain ⟨used, rfl, hused⟩ := h.yields
    obtain ⟨used', more, rfl, hderives⟩ := ih' houtcome
    use used ++ used', more, (List.append_assoc _ _ _).symm
    rw [List.append_assoc]
    exact .sequence hused hderives
  | @sequenceStuck first second tokens _ h ih =>
    obtain ⟨used, more, rfl, hderives⟩ := ih houtcome
    obtain ⟨others, hothers⟩ := second.isProductive
    use used, more ++ others, rfl
    rw [← List.append_assoc]
    exact .sequence hderives hothers
  | left h hreads ih =>
    obtain ⟨used, more, rfl, hderives⟩ := ih houtcome
    exact ⟨used, more, rfl, .left hderives⟩
  | right h h' ih ih' =>
    obtain ⟨used, more, rfl, hderives⟩ := ih' houtcome
    exact ⟨used, more, rfl, .right hderives⟩
  | done h ih => cases houtcome
  | again h h' ih ih' =>
    obtain ⟨used, rfl, hused⟩ := h.yields
    obtain ⟨used', more, rfl, hderives⟩ := ih' houtcome
    use used ++ used', more, (List.append_assoc _ _ _).symm
    rw [List.append_assoc]
    exact .again hused hderives
  | againStuck h hreads ih =>
    obtain ⟨used, more, rfl, hderives⟩ := ih houtcome
    use used, more, rfl
    rw [← List.append_nil (used ++ more)]
    exact .again hderives .done

/-! ### Determinism -/

/-- Reading has one outcome. -/
theorem unique {other : Outcome} (h : Predicts rule tokens outcome)
    (h' : Predicts rule tokens other) :
  outcome = other
  := by
  induction h generalizing other with
  | empty tokens =>
    cases h'
    rfl
  | token h rest =>
    cases h' with
    | token h' => rfl
    | noToken hnot => exact absurd h hnot
  | noToken hnot =>
    cases h' with
    | token h => exact absurd h hnot
    | noToken h => rfl
  | ref h ih =>
    cases h' with
    | ref h' => apply ih h'
  | sequence h h₂ ih ih₂ =>
    cases h' with
    | sequence h' h₂' =>
      cases ih h'
      apply ih₂ h₂'
    | sequenceStuck h' => cases ih h'
  | sequenceStuck h ih =>
    cases h' with
    | sequence h' h₂' => cases ih h'
    | sequenceStuck h' => apply ih h'
  | left h hreads ih =>
    cases h' with
    | left h' => apply ih h'
    | right h' h₂' => exact absurd (ih h') hreads
  | right h h₂ ih ih₂ =>
    cases h' with
    | left h' hreads => exact absurd (ih h').symm hreads
    | right h' h₂' => apply ih₂ h₂'
  | done h ih =>
    cases h' with
    | done h' => rfl
    | again h' h₂' => cases ih h'
    | againStuck h' hreads =>
      cases ih h'
      exact absurd rfl hreads
  | again h h₂ ih ih₂ =>
    cases h' with
    | done h' => cases ih h'
    | again h' h₂' =>
      cases ih h'
      apply ih₂ h₂'
    | againStuck h' hreads => cases ih h'
  | againStuck h hreads ih =>
    cases h' with
    | done h' =>
      cases ih h'
      exact absurd rfl hreads
    | again h' h₂' => cases ih h'
    | againStuck h' => apply ih h'

/-! ### Looking ahead -/

/-- What is left is an end of the tokens. -/
theorem suffix (h : Predicts rule tokens outcome) :
  outcome.rest <:+ tokens
  := by
  cases outcome with
  | done rest =>
    obtain ⟨used, rfl, -⟩ := h.yields
    apply List.suffix_append
  | stuck rest =>
    obtain ⟨used, more, rfl, -⟩ := h.viable
    apply List.suffix_append

/-- The tokens behind the first one that is left can be exchanged for others. -/
theorem exchange (h : Predicts rule tokens outcome) {read left after : List TokenKind}
    {kind : TokenKind} (after' : List TokenKind) (htokens : tokens = read ++ kind :: after)
    (hrest : outcome.rest = left ++ kind :: after) :
  Predicts rule (read ++ kind :: after') (outcome.withRest (left ++ kind :: after'))
  := by
  -- where the tokens left are all tokens, nothing was read
  have hall : ∀ {read left : List TokenKind},
      read ++ kind :: after = left ++ kind :: after → read = left :=
    fun heq => List.append_cancel_right heq
  -- what is left of a part holds what is left of the whole
  have hpart : ∀ {middle stop : List TokenKind}, stop <:+ middle → ∀ {left : List TokenKind},
      stop = left ++ kind :: after → ∃ between, middle = between ++ kind :: after := by
    rintro middle stop ⟨between, rfl⟩ left rfl
    exact ⟨between ++ left, (List.append_assoc _ _ _).symm⟩
  induction h generalizing read left with
  | empty tokens =>
    obtain rfl := hall (htokens.symm.trans hrest)
    apply Predicts.empty
  | @token terminal first h rest =>
    obtain rfl : rest = left ++ kind :: after := hrest
    obtain rfl : first :: left = read := hall htokens
    apply Predicts.token h
  | @noToken terminal tokens h =>
    obtain rfl := hall (htokens.symm.trans hrest)
    apply Predicts.noToken
    subst htokens
    cases read with
    | nil => exact h
    | cons first read => exact h
  | ref h ih => apply (ih htokens hrest).ref
  | sequence h h' ih ih' =>
    obtain ⟨between, rfl⟩ := hpart h'.suffix hrest
    apply (ih htokens rfl).sequence (ih' rfl hrest)
  | sequenceStuck h ih => exact .sequenceStuck (ih htokens hrest)
  | @left first second tokens outcome h hreads ih =>
    apply Predicts.left (ih htokens hrest)
    cases outcome with
    | done rest => nofun
    | stuck rest =>
      obtain rfl : rest = left ++ kind :: after := hrest
      intro heq
      apply hreads
      rw [htokens, List.append_cancel_right (Outcome.stuck.inj heq)]
  | right h h' ih ih' =>
    exact .right (ih htokens htokens) (ih' htokens hrest)
  | done h ih =>
    obtain rfl := hall (htokens.symm.trans hrest)
    exact .done (ih htokens htokens)
  | again h h' ih ih' =>
    obtain ⟨between, rfl⟩ := hpart h'.suffix hrest
    apply (ih htokens rfl).again (ih' rfl hrest)
  | @againStuck rule tokens rest h hreads ih =>
    apply Predicts.againStuck (ih htokens hrest)
    obtain rfl : rest = left ++ kind :: after := hrest
    intro heq
    apply hreads
    rw [htokens, List.append_cancel_right heq]

/-! ### Rules in sequence -/

section Sequence

variable {first second last : Rule}

/-- It does not matter how rules in sequence are grouped. -/
theorem assoc (h : Predicts (.sequence first (.sequence second last)) tokens outcome) :
  Predicts (.sequence (.sequence first second) last) tokens outcome
  := by
  cases h with
  | sequence h h' =>
    cases h' with
    | sequence h' h'' => exact .sequence (.sequence h h') h''
    | sequenceStuck h' => exact .sequenceStuck (.sequence h h')
  | sequenceStuck h => exact .sequenceStuck (.sequenceStuck h)

/-- A nonterminal at the front may be replaced by its rule. -/
theorem expand {nonterminal : Nonterminal}
    (h : Predicts (.sequence (rules nonterminal) last) tokens outcome) :
  Predicts (.sequence (.ref nonterminal) last) tokens outcome
  := by
  cases h with
  | sequence h h' => exact .sequence (.ref h) h'
  | sequenceStuck h => exact .sequenceStuck (.ref h)

/-- A repetition goes on where its rule reads the next token. -/
theorem unroll (hreads : ¬ Predicts rule tokens (.stuck tokens))
    (h : Predicts (.sequence rule (.repeated rule)) tokens outcome) :
  Predicts (.repeated rule) tokens outcome
  := by
  cases h with
  | sequence h h' => exact .again h h'
  | sequenceStuck h =>
    apply Predicts.againStuck h
    rintro rfl
    apply hreads h

/-- A repetition up to a token goes on where that token does not stand. -/
theorem unrollUntil {terminal : Terminal} (hlast : ¬ terminal.Begins tokens)
    (h : Predicts (.sequence rule (.sequence (.repeated rule) (.token terminal))) tokens outcome) :
  Predicts (.sequence (.repeated rule) (.token terminal)) tokens outcome
  := by
  cases h.assoc with
  | sequence hrule htoken =>
    apply Predicts.sequence _ htoken
    cases hrule with
    | sequence hrule hrules => exact .again hrule hrules
  | @sequenceStuck _ _ _ stop hrule =>
    cases hrule with
    | sequence hrule hrules => exact .sequenceStuck (.again hrule hrules)
    | sequenceStuck hrule =>
      by_cases hstop : stop = tokens
      · -- the repetition ends here, and the token is what is missing
        subst hstop
        exact .sequence (.done hrule) (.noToken hlast)
      · exact .sequenceStuck (.againStuck hrule hstop)

/-- An optional part before a token is entered where that token does not stand. -/
theorem enterUntil {terminal : Terminal} (hlast : ¬ terminal.Begins tokens)
    (h : Predicts (.sequence first (.sequence second (.token terminal))) tokens outcome) :
  Predicts (.sequence (.optional (.sequence first second)) (.token terminal)) tokens outcome
  := by
  cases h.assoc with
  | sequence hpart htoken => exact .sequence (.left hpart nofun) htoken
  | @sequenceStuck _ _ _ stop hpart =>
    by_cases hstop : stop = tokens
    · subst hstop
      exact .sequence (.right hpart (.empty stop)) (.noToken hlast)
    · exact .sequenceStuck (.left hpart fun heq => hstop (Outcome.stuck.inj heq))

end Sequence

end Predicts

/-! ### First tokens -/

/-- Whether the rule is never read from no tokens. -/
def Rule.isSolid : Rule → Bool
  | empty => false
  | token _ => true
  | ref _ => true
  | sequence first second => first.isSolid || second.isSolid
  | choice first second => first.isSolid && second.isSolid
  | repeated _ => false

/-- A solid rule derives at least one token. -/
theorem Derives.ne_nil {rule : Rule} {tokens : List TokenKind} (h : Derives rule tokens)
    (hsolid : rule.isSolid) :
  tokens ≠ []
  := by
  induction h with
  | empty => cases hsolid
  | token h => apply List.cons_ne_nil
  | @ref nonterminal tokens h ih =>
    apply ih
    cases nonterminal <;> rfl
  | sequence h h' ih ih' =>
    rw [Ne, List.append_eq_nil_iff, not_and_or]
    exact (Bool.or_eq_true_iff.mp hsolid).imp ih ih'
  | left h ih => apply ih (Bool.and_eq_true_iff.mp hsolid).1
  | right h ih => apply ih (Bool.and_eq_true_iff.mp hsolid).2
  | done => cases hsolid
  | again h h' ih ih' => cases hsolid

/-- A token is read for a solid rule. -/
theorem Predicts.length_lt {rule : Rule} {tokens rest : List TokenKind}
    (h : Predicts rule tokens (.done rest)) (hsolid : rule.isSolid) :
  rest.length < tokens.length
  := by
  obtain ⟨used, rfl, hused⟩ := h.yields
  have hpos := List.length_pos_iff.mpr (hused.ne_nil hsolid)
  rw [List.length_append]
  omega

/-- Whatever is read for the rule begins with a token of the class. -/
inductive Rule.Heads : Rule → Terminal → Prop where
  | token (terminal : Terminal) : Heads (.token terminal) terminal
  | sequence {first second : Rule} {terminal : Terminal} (h : Heads first terminal) :
      Heads (.sequence first second) terminal
  | ref {nonterminal : Nonterminal} {terminal : Terminal} (h : Heads (rules nonterminal) terminal) :
      Heads (.ref nonterminal) terminal

namespace Rule.Heads

variable {rule : Rule} {terminal : Terminal} {tokens : List TokenKind}

/-- A rule with a first terminal is solid. -/
theorem isSolid (h : rule.Heads terminal) :
  rule.isSolid
  := by
  induction h with
  | token terminal => rfl
  | sequence h ih => rw [Rule.isSolid, ih, Bool.true_or]
  | ref h ih => rfl

/-- The reading is stuck at once if the first terminal does not match. -/
theorem stuck (h : rule.Heads terminal) (hbegins : ¬ terminal.Begins tokens) :
  Predicts rule tokens (.stuck tokens)
  := by
  induction h with
  | token terminal => exact .noToken hbegins
  | sequence h ih => exact .sequenceStuck (ih hbegins)
  | ref h ih => exact .ref (ih hbegins)

/-- The reading is not stuck at once if the first terminal matches. -/
theorem not_stuck (h : rule.Heads terminal) (hbegins : terminal.Begins tokens) :
  ¬ Predicts rule tokens (.stuck tokens)
  := by
  intro hstuck
  induction h with
  | token terminal =>
    cases hstuck with
    | noToken hnot => apply hnot hbegins
  | sequence h ih =>
    cases hstuck with
    | sequence hdone hstuck =>
      have hlt := hdone.length_lt h.isSolid
      have hle : tokens.length ≤ _ := hstuck.suffix.length_le
      omega
    | sequenceStuck hstuck => apply ih hbegins hstuck
  | ref h ih =>
    cases hstuck with
    | ref hstuck => apply ih hbegins hstuck

end Rule.Heads

end Grammar

end StackCompiler
