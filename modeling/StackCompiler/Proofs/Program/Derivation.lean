import StackCompiler.Proofs.Program.Grammar

/-!
# Derivations of programs

Whatever the parser reads is derived from the rule that it reads for.  Each function of the parser
follows one rule, or the part of a rule that is still to be read.
-/

namespace StackCompiler

namespace Parse

open Grammar

variable {funcs : SymbolTable}

mutual

/-- What is read as a comparison is derived from the rule for comparisons. -/
theorem comparison_yields :
  ∀ (fuel : Nat) {tokens rest : List TokenKind} {e : Expr},
    comparison funcs fuel tokens = .ok (e, rest) → Yields (.ref .comparison) tokens rest
  | 0, _, _, _, h => by cases h
  | fuel + 1, tokens, rest, e, h => by
      rw [comparison] at h
      obtain ⟨⟨left, middle⟩, hleft, h⟩ := bind_eq_ok.mp h
      apply Yields.ref
      apply (expression_yields fuel hleft).sequence
      dsimp only at h
      split at h
      · rename_i op _
        obtain ⟨⟨right, stop⟩, hright, h⟩ := bind_eq_ok.mp h
        dsimp only at h
        split at h
        · cases h
        · cases h
          apply Yields.left
          exact .sequence (.token (.comparison op)) (expression_yields fuel hright)
      · cases h
        apply Yields.absent

/-- What is read as an expression is derived from the rule for expressions. -/
theorem expression_yields :
  ∀ (fuel : Nat) {tokens rest : List TokenKind} {e : Expr},
    expression funcs fuel tokens = .ok (e, rest) → Yields (.ref .expression) tokens rest
  | 0, _, _, _, h => by cases h
  | fuel + 1, tokens, rest, e, h => by
      rw [expression] at h
      obtain ⟨⟨left, middle⟩, hleft, h⟩ := bind_eq_ok.mp h
      apply Yields.ref
      apply (term_yields fuel hleft).sequence (moreTerms_yields fuel h)

/-- What is read after the first term of an expression are terms, each behind an additive operator.
-/
theorem moreTerms_yields :
  ∀ (fuel : Nat) {left : Expr} {tokens rest : List TokenKind} {e : Expr},
    moreTerms funcs fuel left tokens = .ok (e, rest) →
    Yields (.repeated (.sequence (.token .additive) (.ref .term))) tokens rest
  | 0, _, _, _, _, h => by cases h
  | fuel + 1, left, tokens, rest, e, h => by
      unfold moreTerms at h
      split at h
      · split at h
        · rename_i hop
          obtain ⟨⟨right, middle⟩, hright, h⟩ := bind_eq_ok.mp h
          apply Yields.again _ (moreTerms_yields fuel h)
          exact .sequence (.token (.additive hop)) (term_yields fuel hright)
        · cases h
          apply Yields.done
      · cases h
        apply Yields.done

/-- What is read as a term is derived from the rule for terms. -/
theorem term_yields :
  ∀ (fuel : Nat) {tokens rest : List TokenKind} {e : Expr},
    term funcs fuel tokens = .ok (e, rest) → Yields (.ref .term) tokens rest
  | 0, _, _, _, h => by cases h
  | fuel + 1, tokens, rest, e, h => by
      rw [term] at h
      obtain ⟨⟨left, middle⟩, hleft, h⟩ := bind_eq_ok.mp h
      apply Yields.ref
      apply (primary_yields fuel hleft).sequence (moreFactors_yields fuel h)

/-- What is read after the first factor of a term are operands, each behind a multiplicative
operator. -/
theorem moreFactors_yields :
  ∀ (fuel : Nat) {left : Expr} {tokens rest : List TokenKind} {e : Expr},
    moreFactors funcs fuel left tokens = .ok (e, rest) →
    Yields (.repeated (.sequence (.token .multiplicative) (.ref .primary))) tokens rest
  | 0, _, _, _, _, h => by cases h
  | fuel + 1, left, tokens, rest, e, h => by
      unfold moreFactors at h
      split at h
      · split at h
        · rename_i hop
          obtain ⟨⟨right, middle⟩, hright, h⟩ := bind_eq_ok.mp h
          apply Yields.again _ (moreFactors_yields fuel h)
          exact .sequence (.token (.multiplicative hop)) (primary_yields fuel hright)
        · cases h
          apply Yields.done
      · cases h
        apply Yields.done

/-- What is read as an operand is derived from the rule for operands, by the alternative that its
first token begins. -/
theorem primary_yields :
  ∀ (fuel : Nat) {tokens rest : List TokenKind} {e : Expr},
    primary funcs fuel tokens = .ok (e, rest) → Yields (.ref .primary) tokens rest
  | 0, _, _, _, h => by cases h
  | fuel + 1, tokens, rest, e, h => by
      unfold primary at h
      apply Yields.ref
      split at h
      · obtain ⟨⟨inner, middle⟩, hinner, h⟩ := bind_eq_ok.mp h
        obtain ⟨⟨⟨⟩, stop⟩, hclose, h⟩ := bind_eq_ok.mp h
        cases h
        have hyields := comparison_yields fuel hinner
        rw [expect_reads hclose] at hyields
        apply Yields.left
        apply (Yields.mark .openParen _).sequence
        apply hyields.sequence (.mark .closeParen rest)
      · rename_i op _
        obtain ⟨⟨operand, middle⟩, hoperand, h⟩ := bind_eq_ok.mp h
        cases h
        apply Yields.right
        apply Yields.left
        exact .sequence (.token (.math op)) (expression_yields fuel hoperand)
      · obtain ⟨⟨target, middle⟩, htarget, h⟩ := bind_eq_ok.mp h
        cases h
        rw [variableName_reads htarget]
        apply Yields.right
        apply Yields.right
        apply Yields.left
        exact .ref (.sequence (.token .input) (.token (.variable target)))
      · rename_i value _
        cases h
        iterate 3 apply Yields.right
        exact .ref (.left (.token (.number value)))
      · rename_i name _
        cases h
        iterate 3 apply Yields.right
        exact .ref (.right (.left (.token (.variable name))))
      · obtain ⟨⟨function, middle⟩, hfunction, h⟩ := bind_eq_ok.mp h
        obtain ⟨⟨args, stop⟩, hargs, h⟩ := bind_eq_ok.mp h
        cases h
        rw [functionName_reads hfunction]
        iterate 3 apply Yields.right
        exact .ref (.right (.right (.ref
          (.sequence (.token (.functionName function)) (arguments_yields fuel hargs)))))
      · cases h

/-- What is read as the arguments of a call is nothing, or is derived from the rule for arguments.
-/
theorem arguments_yields :
  ∀ (fuel : Nat) {tokens rest : List TokenKind} {es : List Expr},
    arguments funcs fuel tokens = .ok (es, rest) →
    Yields (.optional (.ref .arguments)) tokens rest
  | 0, _, _, _, h => by cases h
  | fuel + 1, tokens, rest, es, h => by
      unfold arguments at h
      split at h
      · cases h
        exact .left (.ref (.enclosed_empty _ rest))
      · obtain ⟨⟨argument, middle⟩, hargument, h⟩ := bind_eq_ok.mp h
        obtain ⟨⟨args, stop⟩, hargs, h⟩ := bind_eq_ok.mp h
        cases h
        have hfirst := expression_yields fuel hargument
        exact .left (.ref (hfirst.enclosed (moreArguments_yields fuel hargs)))
      · cases h
        apply Yields.absent

/-- What is read after the first argument are expressions, each behind a comma, and then the mark
that ends the arguments. -/
theorem moreArguments_yields :
  ∀ (fuel : Nat) {tokens rest : List TokenKind} {es : List Expr},
    moreArguments funcs fuel tokens = .ok (es, rest) →
    Yields (.repeated (.sequence (.token (.mark .comma)) (.ref .expression))) tokens
      (.mark .argumentsEnd :: rest)
  | 0, _, _, _, h => by cases h
  | fuel + 1, tokens, rest, es, h => by
      unfold moreArguments at h
      split at h
      · obtain ⟨⟨argument, middle⟩, hargument, h⟩ := bind_eq_ok.mp h
        obtain ⟨⟨args, stop⟩, hargs, h⟩ := bind_eq_ok.mp h
        cases h
        apply Yields.again _ (moreArguments_yields fuel hargs)
        apply (Yields.mark .comma _).sequence (expression_yields fuel hargument)
      · obtain ⟨⟨⟨⟩, stop⟩, hend, h⟩ := bind_eq_ok.mp h
        cases h
        rw [expect_reads hend]
        apply Yields.done

end

mutual

/-- What is read as a body is derived from the rule for bodies. -/
theorem body_yields :
  ∀ (fuel : Nat) {tokens rest : List TokenKind} {ss : List Statement},
    body funcs fuel tokens = .ok (ss, rest) → Yields (.ref .body) tokens rest
  | 0, _, _, _, h => by cases h
  | fuel + 1, tokens, rest, ss, h => by
      rw [body] at h
      obtain ⟨⟨⟨⟩, middle⟩, hopen, h⟩ := bind_eq_ok.mp h
      rw [expect_reads hopen]
      apply Yields.ref
      apply (Yields.mark .openBrace middle).sequence
      apply (statements_yields fuel h).sequence (.mark .closeBrace rest)

/-- What is read as the rest of a body are statements, and then the mark that ends the body. -/
theorem statements_yields :
  ∀ (fuel : Nat) {tokens rest : List TokenKind} {ss : List Statement},
    statements funcs fuel tokens = .ok (ss, rest) →
    Yields (.repeated (.ref .statement)) tokens (.mark .closeBrace :: rest)
  | 0, _, _, _, h => by cases h
  | fuel + 1, tokens, rest, ss, h => by
      unfold statements at h
      split at h
      · cases h
        apply Yields.done
      · obtain ⟨⟨first, middle⟩, hfirst, h⟩ := bind_eq_ok.mp h
        obtain ⟨⟨⟨⟩, next⟩, hseparator, h⟩ := bind_eq_ok.mp h
        obtain ⟨⟨others, stop⟩, hothers, h⟩ := bind_eq_ok.mp h
        cases h
        obtain rfl := expect_reads hseparator
        apply (statement_yields fuel hfirst).again (statements_yields fuel hothers)

/-- What is read as a statement is derived, together with the mark that ends it, from the rule for
statements. -/
theorem statement_yields :
  ∀ (fuel : Nat) {tokens rest : List TokenKind} {s : Statement},
    statement funcs fuel tokens = .ok (s, .mark .separator :: rest) →
    Yields (.ref .statement) tokens rest
  | 0, _, _, _, h => by cases h
  | fuel + 1, tokens, rest, s, h => by
      apply Yields.ref
      apply Yields.sequence _ (.mark .separator rest)
      unfold statement at h
      split at h
      · obtain ⟨⟨target, middle⟩, htarget, h⟩ := bind_eq_ok.mp h
        obtain ⟨⟨⟨⟩, next⟩, hpony, h⟩ := bind_eq_ok.mp h
        obtain ⟨⟨value, stop⟩, hvalue, h⟩ := bind_eq_ok.mp h
        cases h
        rw [variableName_reads htarget, expect_reads hpony]
        apply Yields.left
        apply Yields.ref
        apply (Yields.token .assign).sequence
        apply (Yields.token (.variable target)).sequence
        apply (Yields.mark .assignEnd next).sequence (comparison_yields fuel hvalue)
      · obtain ⟨⟨condition, middle⟩, hcondition, h⟩ := bind_eq_ok.mp h
        obtain ⟨⟨consequence, next⟩, hconsequence, h⟩ := bind_eq_ok.mp h
        obtain ⟨⟨other, stop⟩, hother, h⟩ := bind_eq_ok.mp h
        cases h
        have harms := (body_yields fuel hconsequence).sequence (alternative_yields fuel hother)
        apply Yields.right
        apply Yields.left
        exact .ref (.sequence (.token .branch) ((primary_yields fuel hcondition).sequence harms))
      · obtain ⟨⟨condition, middle⟩, hcondition, h⟩ := bind_eq_ok.mp h
        obtain ⟨⟨repeated, stop⟩, hrepeated, h⟩ := bind_eq_ok.mp h
        cases h
        have hloop := (primary_yields fuel hcondition).sequence (body_yields fuel hrepeated)
        iterate 2 apply Yields.right
        exact .left (.ref (.sequence (.token .loop) hloop))
      · obtain ⟨⟨function, middle⟩, hfunction, h⟩ := bind_eq_ok.mp h
        obtain ⟨⟨args, stop⟩, hargs, h⟩ := bind_eq_ok.mp h
        cases h
        rw [functionName_reads hfunction]
        iterate 3 apply Yields.right
        exact .left (.ref
          (.sequence (.token (.functionName function)) (arguments_yields fuel hargs)))
      · obtain ⟨⟨value, stop⟩, hvalue, h⟩ := bind_eq_ok.mp h
        cases h
        iterate 4 apply Yields.right
        exact .left (.ref (.sequence (.token .ret) (comparison_yields fuel hvalue)))
      · rename_i op _
        obtain ⟨⟨value, stop⟩, hvalue, h⟩ := bind_eq_ok.mp h
        cases h
        iterate 5 apply Yields.right
        exact .left (.ref (.sequence (.token (.output op)) (expression_yields fuel hvalue)))
      · obtain ⟨⟨target, middle⟩, htarget, h⟩ := bind_eq_ok.mp h
        cases h
        rw [variableName_reads htarget]
        iterate 6 apply Yields.right
        exact .ref (.sequence (.token .input) (.token (.variable target)))
      · cases h

/-- What is read as the second body of a branch is nothing or a body. -/
theorem alternative_yields :
  ∀ (fuel : Nat) {tokens rest : List TokenKind} {ss : List Statement},
    alternative funcs fuel tokens = .ok (ss, rest) → Yields (.optional (.ref .body)) tokens rest
  | 0, _, _, _, h => by cases h
  | fuel + 1, tokens, rest, ss, h => by
      unfold alternative at h
      split at h
      · exact .left (body_yields fuel h)
      · cases h
        apply Yields.absent

end

/-- What is read after the first parameter are variables, each behind a comma, and then the mark
that ends the parameters. -/
theorem moreParameters_yields {tokens rest : List TokenKind} {names : List String}
    (h : moreParameters tokens = .ok (names, rest)) :
  Yields (.repeated (.sequence (.token (.mark .comma)) (.token .variable))) tokens
    (.mark .argumentsEnd :: rest)
  := by
  fun_induction moreParameters tokens generalizing names with
  | case1 name tokens ih =>
    obtain ⟨⟨others, stop⟩, hothers, h⟩ := bind_eq_ok.mp h
    cases h
    exact .again (.sequence (.mark .comma _) (.token (.variable name))) (ih hothers)
  | case2 tokens hother => cases h
  | case3 tokens hother hother' =>
    obtain ⟨⟨⟨⟩, stop⟩, hend, h⟩ := bind_eq_ok.mp h
    cases h
    rw [expect_reads hend]
    apply Yields.done

/-- What is read as the parameters of a function is nothing, or is derived from the rule for
parameters. -/
theorem parameters_yields {tokens rest : List TokenKind} {names : List String}
    (h : parameters tokens = .ok (names, rest)) :
  Yields (.optional (.ref .parameters)) tokens rest
  := by
  unfold parameters at h
  split at h
  · cases h
    exact .left (.ref (.enclosed_empty _ rest))
  · obtain ⟨⟨name, middle⟩, hname, h⟩ := bind_eq_ok.mp h
    obtain ⟨⟨others, stop⟩, hothers, h⟩ := bind_eq_ok.mp h
    cases h
    rw [variableName_reads hname]
    exact .left (.ref (.enclosed (.token (.variable name)) (moreParameters_yields hothers)))
  · cases h
    apply Yields.absent

/-- What is read as a function is derived from the rule for functions. -/
theorem definition_yields {fuel : Nat} {tokens rest : List TokenKind} {d : Definition}
    (h : definition funcs fuel tokens = .ok (d, rest)) :
  Yields (.ref .function) tokens rest
  := by
  unfold definition at h
  obtain ⟨⟨⟨⟩, afterMark⟩, hmark, h⟩ := bind_eq_ok.mp h
  obtain ⟨⟨name, inner⟩, hname, h⟩ := bind_eq_ok.mp h
  obtain ⟨⟨names, middle⟩, hnames, h⟩ := bind_eq_ok.mp h
  obtain ⟨⟨statements, stop⟩, hbody, h⟩ := bind_eq_ok.mp h
  cases h
  rw [expect_reads hmark, functionName_reads hname]
  apply Yields.ref
  apply (Yields.mark .define _).sequence
  apply (Yields.token (.functionName name)).sequence
  apply (parameters_yields hnames).sequence (body_yields fuel hbody)

/-- Functions are read up to the end of the input, and nothing but functions. -/
theorem definitions_yields :
  ∀ (fuel : Nat) {tokens rest : List TokenKind} {ds : List Definition},
    definitions funcs fuel tokens = .ok (ds, rest) →
    rest = [] ∧ Yields (.repeated (.ref .function)) tokens []
  | 0, _, _, _, h => by cases h
  | fuel + 1, tokens, rest, ds, h => by
      unfold definitions at h
      split at h
      · cases h
        exact ⟨rfl, .done _ []⟩
      · obtain ⟨⟨first, middle⟩, hfirst, h⟩ := bind_eq_ok.mp h
        obtain ⟨⟨others, stop⟩, hothers, h⟩ := bind_eq_ok.mp h
        cases h
        obtain ⟨rfl, hyields⟩ := definitions_yields fuel hothers
        use rfl
        apply (definition_yields hfirst).again hyields

/-- What is read as a program is derived from the grammar. -/
theorem derives_of_program {tokens : List TokenKind} {p : Program}
    (h : program funcs tokens = .ok p) :
  Derives (.ref .program) (tokens ++ [.endOfInput])
  := by
  unfold program at h
  obtain ⟨⟨first, middle⟩, hfirst, h⟩ := bind_eq_ok.mp h
  obtain ⟨⟨others, stop⟩, hothers, h⟩ := bind_eq_ok.mp h
  obtain ⟨used, rfl, hused⟩ := definition_yields hfirst
  obtain ⟨-, used', rfl, hused'⟩ := definitions_yields _ hothers
  rw [List.append_nil, List.append_assoc]
  exact .ref (.sequence hused (.sequence hused' (.token (.mark .endOfInput))))

end Parse

end StackCompiler
