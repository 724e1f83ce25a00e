import Mathlib.Computability.StateTransition
import Mathlib.Data.Nat.Find
import StackCompiler.Program.FunctionNames
import StackCompiler.Proofs.SymbolTable

/-!
# Registering functions

Functions are registered in two passes over the tokens.  The first pass enters the declared names
into the table and fails at the first name that is there already; it changes no token.  The second
pass marks the names of the table and cannot fail.

Hence the outcome can be told from the tokens and the table: registration fails exactly if a name
is declared that the table or an earlier token has, and a second registration changes nothing.
-/

namespace StackCompiler.FunctionNames

open StateTransition

/-! ### Declarations -/

/-- The name that a token declares by the token behind it, with its place: the token is the mark of
a definition, and what is behind it is a variable. -/
def declares? : Token → Option Token → Option (String × Span)
  | ⟨.mark .define, _⟩, some ⟨.variable name, span⟩ => some (name, span)
  | _, _ => none

/-- The name that is declared by the token at a position. -/
def declaredAt? (tokens : List Token) (position : Nat) : Option (String × Span) :=
  tokens[position]?.bind fun token => declares? token tokens[position + 1]?

/-- A name is declared by the mark of a definition with the name behind it. -/
theorem declares?_eq_some_iff {token : Token} {next : Option Token} {declaration : String × Span} :
  declares? token next = some declaration
    ↔ token.kind = .mark .define ∧ next = some ⟨.variable declaration.1, declaration.2⟩
  := by
  unfold declares?
  split
  · simp [Prod.ext_iff]
  · rename_i hnot
    constructor
    · nofun
    · rintro ⟨hkind, hnext⟩
      obtain ⟨kind, span⟩ := token
      cases hkind
      cases hnot _ _ _ rfl hnext

/-- Only the keyword of functions declares a name. -/
theorem declares?_eq_none {token : Token} (h : token.kind ≠ .mark .define) (next : Option Token) :
  declares? token next = none
  := by
  apply Option.eq_none_iff_forall_ne_some.mpr
  intro declaration hdeclares
  exact h (declares?_eq_some_iff.mp hdeclares).1

section Declarations

variable (token : Token) (tokens : List Token)

/-- The first token declares a name or not, and the others declare what they declare alone. -/
theorem declared_cons :
  declared (token :: tokens) = (declares? token tokens.head?).toList ++ declared tokens
  := by
  rw [declared.eq_def]
  split
  · rename_i heq
    cases heq
    -- A variable behind the mark declares nothing itself.
    rw [List.head?_cons, declares?, declared]
    · rfl
    · nofun
  · rename_i hnot heq
    cases heq
    have hnone : declares? token tokens.head? = none := by
      apply Option.eq_none_iff_forall_ne_some.mpr
      intro declaration hdeclares
      obtain ⟨hkind, hhead⟩ := declares?_eq_some_iff.mp hdeclares
      obtain ⟨rest, rfl⟩ := List.head?_eq_some_iff.mp hhead
      obtain ⟨kind, span⟩ := token
      cases hkind
      exact (hnot _ _ _ _ rfl rfl).elim
    rw [hnone]
    rfl
  · rename_i heq
    cases heq

theorem declaredAt?_zero :
  declaredAt? (token :: tokens) 0 = declares? token tokens.head?
  := by
  simp [declaredAt?, List.head?_eq_getElem?]

theorem declaredAt?_succ (position : Nat) :
  declaredAt? (token :: tokens) (position + 1) = declaredAt? tokens position
  := by
  simp [declaredAt?]

/-- What is declared behind tokens does not depend on them. -/
theorem declaredAt?_append (before : List Token) :
  declaredAt? (before ++ token :: tokens) before.length = declares? token tokens.head?
  := by
  induction before with
  | nil => apply declaredAt?_zero
  | cons first before ih => rw [List.cons_append, List.length_cons, declaredAt?_succ, ih]

/-- A token that declares a name has another one behind it, where the name stands. -/
theorem getElem?_of_declaredAt? {tokens : List Token} {position : Nat} {name : String}
    {span : Span} (h : declaredAt? tokens position = some (name, span)) :
  tokens[position + 1]? = some ⟨.variable name, span⟩
  := by
  obtain ⟨token, -, hdeclares⟩ := Option.bind_eq_some_iff.mp h
  exact (declares?_eq_some_iff.mp hdeclares).2

end Declarations

/-- The declared names in the order of their positions. -/
theorem declared_eq_filterMap (tokens : List Token) :
  declared tokens = (List.range tokens.length).filterMap (declaredAt? tokens)
  := by
  induction tokens with
  | nil => rfl
  | cons token tokens ih =>
    have hshift : declaredAt? (token :: tokens) ∘ Nat.succ = declaredAt? tokens :=
      funext (declaredAt?_succ token tokens)
    rw [declared_cons, ih, List.length_cons, List.range_succ_eq_map, List.filterMap_cons,
      declaredAt?_zero, List.filterMap_map, hshift]
    cases declares? token tokens.head? <;> rfl

/-- The token at a position declares a name that the table or an earlier token has. -/
def Clashes (tokens : List Token) (funcs : SymbolTable) (position : Nat) (name : String)
    (span : Span) : Prop :=
  declaredAt? tokens position = some (name, span)
    ∧ (name ∈ funcs.names
      ∨ ∃ earlier < position, ∃ place, declaredAt? tokens earlier = some (name, place))

/-- The table with a name entered, if there is one. -/
def withDeclared (funcs : SymbolTable) (declaration : Option (String × Span)) : SymbolTable :=
  declaration.elim funcs fun (name, _) => funcs.extend name

/-- Behind the first token, its name counts as a name of the table. -/
theorem clashes_succ {token : Token} {tokens : List Token} {funcs : SymbolTable} {position : Nat}
    {name : String} {span : Span} :
  Clashes (token :: tokens) funcs (position + 1) name span
    ↔ Clashes tokens (withDeclared funcs (declares? token tokens.head?)) position name span
  := by
  have hmem : name ∈ (withDeclared funcs (declares? token tokens.head?)).names
      ↔ name ∈ funcs.names ∨ ∃ place, declares? token tokens.head? = some (name, place) := by
    cases declares? token tokens.head? with
    | none => simp [withDeclared]
    | some declaration => simp [withDeclared, SymbolTable.extend, Prod.ext_iff, eq_comm]
  have hearlier : (∃ earlier < position + 1, ∃ place,
        declaredAt? (token :: tokens) earlier = some (name, place))
      ↔ (∃ place, declares? token tokens.head? = some (name, place))
        ∨ ∃ earlier < position, ∃ place, declaredAt? tokens earlier = some (name, place) := by
    rw [Nat.exists_lt_succ_left]
    simp only [declaredAt?_zero, declaredAt?_succ]
  rw [Clashes, Clashes, declaredAt?_succ, hmem, hearlier, or_assoc]

/-- The first token clashes if it declares a name of the table. -/
theorem clashes_zero {token : Token} {tokens : List Token} {funcs : SymbolTable} {name : String}
    {span : Span} :
  Clashes (token :: tokens) funcs 0 name span
    ↔ declares? token tokens.head? = some (name, span) ∧ name ∈ funcs.names
  := by
  simp [Clashes, declaredAt?_zero]

/-- A token declares a name that is there already, and no token before it does. -/
def FirstClash (tokens : List Token) (funcs : SymbolTable) (error : SyntaxError) : Prop :=
  ∃ position name span, Clashes tokens funcs position name span
    ∧ (∀ earlier < position, ∀ name span, ¬ Clashes tokens funcs earlier name span)
    ∧ error = .redefinition name span

section FirstClash

variable {token : Token} {tokens : List Token} {funcs : SymbolTable} {error : SyntaxError}

/-- If the first token clashes, then the error is about it. -/
theorem firstClash_of_clashes_zero {name : String} {span : Span}
    (h : Clashes (token :: tokens) funcs 0 name span) :
  FirstClash (token :: tokens) funcs error ↔ error = .redefinition name span
  := by
  constructor
  · rintro ⟨position, other, place, hclash, hfirst, rfl⟩
    cases position with
    | zero =>
      cases h.1.symm.trans hclash.1
      rfl
    | succ position => cases hfirst 0 (Nat.succ_pos position) name span h
  · rintro rfl
    exact ⟨0, name, span, h, by nofun, rfl⟩

/-- If the first token does not clash, then the error is about another one. -/
theorem firstClash_cons (h : ∀ name span, ¬ Clashes (token :: tokens) funcs 0 name span) :
  FirstClash (token :: tokens) funcs error
    ↔ FirstClash tokens (withDeclared funcs (declares? token tokens.head?)) error
  := by
  constructor
  · rintro ⟨position, name, span, hclash, hfirst, rfl⟩
    cases position with
    | zero => cases h name span hclash
    | succ position =>
      refine ⟨position, name, span, clashes_succ.mp hclash, ?_, rfl⟩
      intro earlier hlt name span hearlier
      exact hfirst (earlier + 1) (Nat.succ_lt_succ hlt) name span (clashes_succ.mpr hearlier)
  · rintro ⟨position, name, span, hclash, hfirst, rfl⟩
    refine ⟨position + 1, name, span, clashes_succ.mpr hclash, ?_, rfl⟩
    intro earlier hlt name span hearlier
    cases earlier with
    | zero => exact h name span hearlier
    | succ earlier =>
      exact hfirst earlier (Nat.lt_of_succ_lt_succ hlt) name span (clashes_succ.mp hearlier)

/-- If some token clashes, then there is a first one that does. -/
theorem exists_firstClash_iff :
  (∃ error, FirstClash tokens funcs error)
    ↔ ∃ position name span, Clashes tokens funcs position name span
  := by
  classical
  constructor
  · rintro ⟨_, position, name, span, hclash, -, -⟩
    exact ⟨position, name, span, hclash⟩
  · intro h
    obtain ⟨name, span, hclash⟩ := Nat.find_spec h
    refine ⟨.redefinition name span, Nat.find h, name, span, hclash, ?_, rfl⟩
    intro earlier hlt name span hearlier
    exact Nat.find_min h hlt ⟨name, span, hearlier⟩

end FirstClash

/-! ### Entering names -/

section Entering

variable {funcs : SymbolTable} {name : String} (span : Span) (rest : List (String × Span))

/-- A name of the table is not entered again: there is an error at its place. -/
theorem enter_cons_of_mem (h : name ∈ funcs.names) :
  enter funcs ((name, span) :: rest) = .error (.redefinition name span)
    ∧ enteredTable funcs ((name, span) :: rest) = funcs
  := by
  have hsome := SymbolTable.isSome_lookup?.mpr h
  constructor
  · rw [enter, if_pos hsome]
  · rw [enteredTable, entered, if_pos hsome, List.foldl_nil]

/-- A new name is entered before the others. -/
theorem enter_cons_of_not_mem (h : name ∉ funcs.names) :
  enter funcs ((name, span) :: rest) = enter (funcs.extend name) rest
    ∧ enteredTable funcs ((name, span) :: rest) = enteredTable (funcs.extend name) rest
  := by
  have hnone : ¬ (funcs.lookup? name).isSome := mt SymbolTable.isSome_lookup?.mp h
  have hgrown : (funcs.intern name).2 = funcs.extend name := by
    rw [SymbolTable.intern_snd, if_neg h]
  constructor
  · rw [enter, if_neg hnone, hgrown]
  · rw [enteredTable, entered, if_neg hnone]
    dsimp only
    rw [List.foldl_cons, hgrown, enteredTable]

end Entering

/-- Names are entered up to the first clash. -/
theorem enter_eq_error_iff {tokens : List Token} {funcs : SymbolTable} {error : SyntaxError} :
  enter funcs (declared tokens) = .error error ↔ FirstClash tokens funcs error
  := by
  induction tokens generalizing funcs with
  | nil => simp [declared, enter, FirstClash, Clashes, declaredAt?]
  | cons token tokens ih =>
    rw [declared_cons]
    cases hdeclares : declares? token tokens.head? with
    | none =>
      rw [firstClash_cons (by simp [clashes_zero, hdeclares]), hdeclares]
      exact ih
    | some declaration =>
      obtain ⟨name, span⟩ := declaration
      rw [Option.toList_some, List.singleton_append]
      by_cases hmem : name ∈ funcs.names
      · rw [(enter_cons_of_mem span _ hmem).1,
          firstClash_of_clashes_zero (clashes_zero.mpr ⟨hdeclares, hmem⟩), Except.error.injEq]
        exact eq_comm
      · have hnone : ∀ name span, ¬ Clashes (token :: tokens) funcs 0 name span := by
          intro other place hclash
          obtain ⟨hother, htaken⟩ := clashes_zero.mp hclash
          cases hdeclares.symm.trans hother
          exact hmem htaken
        rw [(enter_cons_of_not_mem span _ hmem).1, firstClash_cons hnone, hdeclares]
        exact ih

/-- The table grows by the names that are entered, in their order. -/
theorem names_of_enter {funcs final : SymbolTable} {names : List (String × Span)}
    (h : enter funcs names = .ok final) :
  final.names = funcs.names ++ names.map Prod.fst
  := by
  induction names generalizing funcs with
  | nil =>
    cases h
    rw [List.map_nil, List.append_nil]
  | cons first names ih =>
    obtain ⟨name, span⟩ := first
    by_cases hmem : name ∈ funcs.names
    · rw [(enter_cons_of_mem span names hmem).1] at h
      cases h
    · rw [(enter_cons_of_not_mem span names hmem).1] at h
      simp [ih h, SymbolTable.extend]

/-! ### Marking functions -/

/-- A token after the functions of a table are marked: a variable of the table has become a
function, and anything else has stayed as it was. -/
structure Marks (funcs : SymbolTable) (token marked : Token) : Prop where
  span : marked.span = token.span
  function : ∀ name, token.kind = .variable name → name ∈ funcs.names →
    marked.kind = .function name
  other : (∀ name, token.kind = .variable name → name ∉ funcs.names) → marked.kind = token.kind

section Marking

variable (funcs : SymbolTable)

/-- A variable becomes a function if its name is in the table. -/
theorem retag_variable (name : String) (span : Span) :
  retag funcs ⟨.variable name, span⟩
    = ⟨if name ∈ funcs.names then .function name else .variable name, span⟩
  := by
  by_cases h : name ∈ funcs.names
  · simp [retag, SymbolTable.isSome_lookup?, h]
  · simp [retag, SymbolTable.isSome_lookup?, h]

/-- Any other token stays. -/
theorem retag_of_not_variable {token : Token} (h : ∀ name, token.kind ≠ .variable name) :
  retag funcs token = token
  := by
  unfold retag
  split
  · rename_i name hkind
    cases h name hkind
  · rfl

/-- A token is marked as the table says. -/
theorem marks_retag (token : Token) :
  Marks funcs token (retag funcs token)
  := by
  by_cases hvariable : ∃ name, token.kind = .variable name
  · obtain ⟨kind, span⟩ := token
    obtain ⟨name, rfl⟩ := hvariable
    rw [retag_variable]
    constructor
    · rfl
    · rintro _ ⟨⟩ hmem
      exact if_pos hmem
    · intro hnone
      exact if_neg (hnone name rfl)
  · have hother : ∀ name, token.kind ≠ .variable name := not_exists.mp hvariable
    rw [retag_of_not_variable funcs hother]
    exact ⟨rfl, fun name hkind _ => absurd hkind (hother name), fun _ => rfl⟩

/-- A token that is marked stays so. -/
theorem retag_retag (token : Token) :
  retag funcs (retag funcs token) = retag funcs token
  := by
  by_cases hvariable : ∃ name, token.kind = .variable name
  · obtain ⟨kind, span⟩ := token
    obtain ⟨name, rfl⟩ := hvariable
    by_cases hmem : name ∈ funcs.names
    · rw [retag_variable, if_pos hmem, retag_of_not_variable]
      nofun
    · rw [retag_variable, if_neg hmem, retag_variable, if_neg hmem]
  · rw [retag_of_not_variable funcs (not_exists.mp hvariable),
      retag_of_not_variable funcs (not_exists.mp hvariable)]

/-- Marking leaves no new mark of a definition. -/
theorem kind_retag_ne {token : Token} (h : token.kind ≠ .mark .define) :
  (retag funcs token).kind ≠ .mark .define
  := by
  by_cases hfunction : ∃ name, token.kind = .variable name ∧ name ∈ funcs.names
  · obtain ⟨name, hkind, hmem⟩ := hfunction
    rw [(marks_retag funcs token).function name hkind hmem]
    nofun
  · rwa [(marks_retag funcs token).other fun name hkind hmem => hfunction ⟨name, hkind, hmem⟩]

/-- After marking, a token declares only names that are not in the table. -/
theorem declares?_retag (token : Token) (next : Option Token) :
  declares? (retag funcs token) (next.map (retag funcs))
    = (declares? token next).filter fun declaration => declaration.1 ∉ funcs.names
  := by
  by_cases hmark : token.kind = .mark .define
  · obtain ⟨_, span⟩ := token
    cases hmark
    match next with
    | none => rfl
    | some ⟨.variable name, place⟩ =>
      rw [Option.map_some, retag_variable]
      by_cases hmem : name ∈ funcs.names
      · simp [retag, declares?, Option.filter, hmem]
      · simp [retag, declares?, Option.filter, hmem]
    | some ⟨.function _, _⟩ | some ⟨.mark _, _⟩ | some ⟨.binary _, _⟩ | some ⟨.unary _, _⟩
    | some ⟨.control _, _⟩ | some ⟨.number _, _⟩ => rfl
  · rw [declares?_eq_none hmark, declares?_eq_none (kind_retag_ne funcs hmark)]
    rfl

/-- After marking, the names of the table are not declared any more. -/
theorem declared_map_retag (tokens : List Token) :
  declared (tokens.map (retag funcs))
    = (declared tokens).filter fun declaration => declaration.1 ∉ funcs.names
  := by
  induction tokens with
  | nil => rfl
  | cons token tokens ih =>
    rw [List.map_cons, declared_cons, declared_cons, List.filter_append, ih, List.head?_map,
      declares?_retag]
    cases declares? token tokens.head? <;> simp [Option.filter, List.filter]
    split <;> simp_all

end Marking

/-! ### The two passes -/

/-- What is to be done next: to enter the name at a position, to mark the token at a position, or
nothing any more. -/
inductive Phase where
  | entering (position : Nat)
  | marking (position : Nat)
  | finished
  | failed (error : SyntaxError)

/-- The state of the two passes. -/
structure Registrar where
  tokens : List Token
  funcs : SymbolTable
  phase : Phase := .entering 0

namespace Registrar

/-- One turn of the passes; there is none when they are finished or have failed.  The first pass
looks at each token that has another one behind it. -/
def step (registrar : Registrar) : Option Registrar :=
  match registrar with
  | { tokens, funcs, phase := .entering position } =>
    if position + 1 < tokens.length then
      match declaredAt? tokens position with
      | some (name, span) =>
        if (funcs.lookup? name).isSome then
          some { tokens, funcs, phase := .failed (.redefinition name span) }
        else some { tokens, funcs := (funcs.intern name).2, phase := .entering (position + 1) }
      | none => some { tokens, funcs, phase := .entering (position + 1) }
    else some { tokens, funcs, phase := .marking 0 }
  | { tokens, funcs, phase := .marking position } =>
    match tokens[position]? with
    | some token =>
      some {
        tokens := tokens.set position (retag funcs token)
        funcs
        phase := .marking (position + 1) }
    | none => some { tokens, funcs, phase := .finished }
  | { phase := .finished, .. } => none
  | { phase := .failed _, .. } => none

/-- The second pass marks all tokens that are left. -/
theorem reaches_finished (funcs : SymbolTable) (marked rest : List Token) :
  Reaches step { tokens := marked ++ rest, funcs, phase := .marking marked.length }
    { tokens := marked ++ rest.map (retag funcs), funcs, phase := .finished }
  := by
  induction rest generalizing marked with
  | nil =>
    apply Relation.ReflTransGen.single
    simp [step]
  | cons token rest ih =>
    have hstep : step { tokens := marked ++ token :: rest, funcs, phase := .marking marked.length }
        = some {
            tokens := marked ++ [retag funcs token] ++ rest
            funcs
            phase := .marking (marked ++ [retag funcs token]).length } := by
      simp [step]
    refine .head hstep ?_
    have hrest := ih (marked ++ [retag funcs token])
    rwa [List.append_assoc _ _ (rest.map _)] at hrest

/-- The second pass marks all tokens and then ends. -/
theorem eval_marking (tokens : List Token) (funcs : SymbolTable) :
  eval step { tokens, funcs, phase := .marking 0 }
    = Part.some { tokens := tokens.map (retag funcs), funcs, phase := .finished }
  := by
  apply Part.eq_some_iff.mpr
  exact mem_eval.mpr ⟨reaches_finished funcs [] tokens, rfl⟩

/-- When no token is left that has another one behind it, the second pass begins. -/
theorem eval_entering_of_le {tokens : List Token} {position : Nat}
    (h : tokens.length ≤ position + 1) (funcs : SymbolTable) :
  eval step { tokens, funcs, phase := .entering position }
    = Part.some { tokens := tokens.map (retag funcs), funcs, phase := .finished }
  := by
  rw [← eval_marking]
  exact reaches_eval (.single (if_neg (Nat.not_lt_of_le h)))

section Turns

variable {tokens : List Token} {funcs : SymbolTable} {position : Nat} {name : String} {span : Span}

/-- The first pass goes on where nothing is declared. -/
theorem eval_entering_skip (h : declaredAt? tokens position = none) :
  eval step { tokens, funcs, phase := .entering position }
    = eval step { tokens, funcs, phase := .entering (position + 1) }
  := by
  by_cases hmore : position + 1 < tokens.length
  · apply reaches_eval
    refine .single ((if_pos hmore).trans ?_)
    rw [h]
  · rw [eval_entering_of_le (by omega), eval_entering_of_le (by omega)]

/-- The first pass ends at a name that is declared again. -/
theorem eval_entering_clash (h : declaredAt? tokens position = some (name, span))
    (hmem : name ∈ funcs.names) :
  eval step { tokens, funcs, phase := .entering position }
    = Part.some { tokens, funcs, phase := .failed (.redefinition name span) }
  := by
  have hmore := (List.getElem?_eq_some_iff.mp (getElem?_of_declaredAt? h)).1
  apply Part.eq_some_iff.mpr
  apply mem_eval.mpr
  refine ⟨.single ((if_pos hmore).trans ?_), rfl⟩
  rw [h]
  exact if_pos (SymbolTable.isSome_lookup?.mpr hmem)

/-- The first pass enters a new name and goes on. -/
theorem eval_entering_new (h : declaredAt? tokens position = some (name, span))
    (hnew : name ∉ funcs.names) :
  eval step { tokens, funcs, phase := .entering position }
    = eval step { tokens, funcs := funcs.extend name, phase := .entering (position + 1) }
  := by
  have hmore := (List.getElem?_eq_some_iff.mp (getElem?_of_declaredAt? h)).1
  apply reaches_eval
  refine .single ((if_pos hmore).trans ?_)
  rw [h]
  apply (if_neg (mt SymbolTable.isSome_lookup?.mp hnew)).trans
  rw [SymbolTable.intern_snd, if_neg hnew]

end Turns

/-- What the passes come to if names are left to be entered: the names are entered and the tokens
marked, or the first pass fails with the names entered up to there and the tokens as they were. -/
def outcome (tokens : List Token) (funcs : SymbolTable) (names : List (String × Span)) :
    Registrar :=
  match enter funcs names with
  | .ok funcs => { tokens := tokens.map (retag funcs), funcs, phase := .finished }
  | .error error => { tokens, funcs := enteredTable funcs names, phase := .failed error }

/-- From any position on, the first pass enters what is declared there, and the second pass follows.
-/
theorem eval_entering (before rest : List Token) (funcs : SymbolTable) :
  eval step { tokens := before ++ rest, funcs, phase := .entering before.length }
    = Part.some (outcome (before ++ rest) funcs (declared rest))
  := by
  induction rest generalizing before funcs with
  | nil => exact eval_entering_of_le (by simp) funcs
  | cons token rest ih =>
    have hat := declaredAt?_append token rest before
    have hrest : ∀ funcs, eval step {
          tokens := before ++ token :: rest
          funcs
          phase := .entering (before.length + 1) }
        = Part.some (outcome (before ++ token :: rest) funcs (declared rest)) := by
      intro funcs
      simpa using ih (before ++ [token]) funcs
    rw [declared_cons]
    cases hdeclares : declares? token rest.head? with
    | none =>
      rw [hdeclares] at hat
      rw [eval_entering_skip hat, hrest]
      rfl
    | some declaration =>
      obtain ⟨name, span⟩ := declaration
      rw [hdeclares] at hat
      rw [Option.toList_some, List.singleton_append]
      by_cases hmem : name ∈ funcs.names
      · obtain ⟨henter, hentered⟩ := enter_cons_of_mem span (declared rest) hmem
        rw [eval_entering_clash hat hmem, outcome, henter, hentered]
      · obtain ⟨henter, hentered⟩ := enter_cons_of_not_mem span (declared rest) hmem
        rw [eval_entering_new hat hmem, hrest, outcome, outcome, henter, hentered]

/-- The passes end with the outcome of all declarations. -/
theorem eval_start (tokens : List Token) (funcs : SymbolTable) :
  eval step { tokens, funcs } = Part.some (outcome tokens funcs (declared tokens))
  := eval_entering [] tokens funcs

end Registrar

/-! ### The outcome -/

/-- Registration enters what is declared and then marks all tokens. -/
theorem register_eq (tokens : List Token) (funcs : SymbolTable) :
  register tokens funcs
    = (enter funcs (declared tokens)).map fun funcs => (tokens.map (retag funcs), funcs)
  := by
  rw [register]
  cases enter funcs (declared tokens) <;> rfl

/-- After the names of tokens are entered and marked, registration has nothing to do. -/
theorem register_map_retag {tokens : List Token} {funcs final : SymbolTable}
    (h : enter funcs (declared tokens) = .ok final) :
  register (tokens.map (retag final)) final = .ok (tokens.map (retag final), final)
  := by
  have hnone : declared (tokens.map (retag final)) = [] := by
    rw [declared_map_retag, List.filter_eq_nil_iff, names_of_enter h]
    intro declaration hmem
    rw [decide_eq_true_eq, not_not]
    exact List.mem_append_right _ (List.mem_map_of_mem hmem)
  have hagain : (tokens.map (retag final)).map (retag final) = tokens.map (retag final) := by
    rw [List.map_map]
    exact List.map_congr_left fun token _ => retag_retag final token
  rw [register_eq, hnone, enter, Except.map, hagain]

/-- Registration fails exactly if a declared name is in the table or was declared before.  It
reports the first such name and its place and leaves the tokens as they are.  Otherwise the table
grows by the declared names in their order, the names of the table are marked as functions and all
else stays as it is, and a second registration changes nothing. -/
theorem register_outcome (tokens : List Token) (funcs : SymbolTable) :
  ((∃ error, register tokens funcs = .error error)
      ↔ ∃ position name span, Clashes tokens funcs position name span)
    ∧ (∀ error, register tokens funcs = .error error →
        FirstClash tokens funcs error
          ∧ eval Registrar.step { tokens, funcs }
            = Part.some {
                tokens
                funcs := enteredTable funcs (declared tokens)
                phase := .failed error })
    ∧ ∀ marked final, register tokens funcs = .ok (marked, final) →
        eval Registrar.step { tokens, funcs }
            = Part.some { tokens := marked, funcs := final, phase := .finished }
          ∧ final.names = funcs.names
            ++ ((List.range tokens.length).filterMap (declaredAt? tokens)).map Prod.fst
          ∧ List.Forall₂ (Marks final) tokens marked
          ∧ register marked final = .ok (marked, final)
  := by
  have hpasses := Registrar.eval_start tokens funcs
  have hregister := register_eq tokens funcs
  cases henter : enter funcs (declared tokens) with
  | error error =>
    have hfirst := enter_eq_error_iff.mp henter
    rw [Registrar.outcome, henter] at hpasses
    rw [henter, Except.map] at hregister
    rw [hregister]
    refine ⟨iff_of_true ⟨error, rfl⟩ (exists_firstClash_iff.mp ⟨error, hfirst⟩), ?_, ?_⟩
    · rintro _ ⟨⟩
      exact ⟨hfirst, hpasses⟩
    · rintro _ _ ⟨⟩
  | ok final =>
    rw [Registrar.outcome, henter] at hpasses
    rw [henter, Except.map] at hregister
    rw [hregister]
    refine ⟨iff_of_false ?_ ?_, ?_, ?_⟩
    · rintro ⟨_, ⟨⟩⟩
    · intro hclash
      obtain ⟨error, hfirst⟩ := exists_firstClash_iff.mpr hclash
      cases henter.symm.trans (enter_eq_error_iff.mpr hfirst)
    · rintro _ ⟨⟩
    · rintro _ _ ⟨⟩
      refine ⟨hpasses, ?_, ?_, register_map_retag henter⟩
      · rw [names_of_enter henter, declared_eq_filterMap]
      · rw [List.forall₂_map_right_iff]
        exact List.forall₂_same.mpr fun token _ => marks_retag final token

/-- Two functions, the first one behind two marks and used behind its definition, and a variable. -/
def overlapping : List Token :=
  ([.mark .define, .mark .define, .variable "f", .mark .define, .variable "g", .variable "x",
    .variable "f"] : List TokenKind).zipIdx.map fun (kind, start) =>
      { kind, span := ⟨start, start + 1⟩ }

/-- The functions are registered behind those of the table, unless the table has one of them. -/
theorem register_outcome_overlapping :
  (∃ marked, register overlapping ⟨["h"]⟩ = .ok (marked, ⟨["h", "f", "g"]⟩)
      ∧ marked.map (·.kind) = [.mark .define, .mark .define, .function "f", .mark .define,
        .function "g", .variable "x", .function "f"]
      ∧ List.Forall₂ (Marks ⟨["h", "f", "g"]⟩) overlapping marked
      ∧ register marked ⟨["h", "f", "g"]⟩ = .ok (marked, ⟨["h", "f", "g"]⟩))
    ∧ register overlapping ⟨["g"]⟩ = .error (.redefinition "g" ⟨4, 5⟩)
    ∧ FirstClash overlapping ⟨["g"]⟩ (.redefinition "g" ⟨4, 5⟩)
    ∧ eval Registrar.step { tokens := overlapping, funcs := ⟨["g"]⟩ }
      = Part.some {
          tokens := overlapping
          funcs := ⟨["g", "f"]⟩
          phase := .failed (.redefinition "g" ⟨4, 5⟩) }
  := by
  have hregistered : register overlapping ⟨["h"]⟩
      = .ok (overlapping.map (retag ⟨["h", "f", "g"]⟩), ⟨["h", "f", "g"]⟩) := by decide +kernel
  have hclash : register overlapping ⟨["g"]⟩ = .error (.redefinition "g" ⟨4, 5⟩) := by
    decide +kernel
  have hentered : enteredTable ⟨["g"]⟩ (declared overlapping) = ⟨["g", "f"]⟩ := by decide +kernel
  constructor
  · obtain ⟨-, -, hmarked⟩ := register_outcome overlapping ⟨["h"]⟩
    obtain ⟨-, -, hmarks, hagain⟩ := hmarked _ _ hregistered
    exact ⟨_, hregistered, by decide +kernel, hmarks, hagain⟩
  · obtain ⟨-, hfailed, -⟩ := register_outcome overlapping ⟨["g"]⟩
    obtain ⟨hfirst, hpasses⟩ := hfailed _ hclash
    rw [hentered] at hpasses
    exact ⟨hclash, hfirst, hpasses⟩

end StackCompiler.FunctionNames
