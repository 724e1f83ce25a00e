import StackCompiler.Proofs.Compile.Outcomes
import StackCompiler.Proofs.Exchange.RoundTrip
import StackCompiler.Proofs.Tree.Links

/-!
# Shape determines code

Two trees of the same shape may have their nodes at other positions of the arena, in another order,
shared or not, and among nodes that cannot be reached.  Shapes are compared by tags and payloads,
and a payload is a number that may be rounded.  Below `2 ^ 53` it is exact, so trees of the same
shape with positions in their tables below that bound have nodes of the same kinds.

Lowering sees a tree through its unfolding, and uses the positions of nodes only in errors.  So such
trees have the same code, or they have none for the same reason.
-/

namespace StackCompiler

/-! ### Kinds -/

/-- Numbers that are represented exactly are told apart. -/
theorem Binary64.eq_of_ofNat_eq {m n : Nat} (hm : m < 2 ^ 53) (hn : n < 2 ^ 53)
    (h : ofNat m = ofNat n) :
  m = n
  := by
  have hinteger := integer?_ofNat hm
  rw [h, integer?_ofNat hn] at hinteger
  apply Int.ofNat.inj (Option.some.inj hinteger.symm)

/-- An operator that is read back from its number is determined by the payload of its node. -/
theorem eq_of_payload_eq {α : Type} {code : α → Nat} {ofCode? : Int → Option α}
    (hcode : ∀ op, code op < 2 ^ 53 ∧ ofCode? (code op) = some op) {op op' : α}
    (h : Binary64.ofNat (code op) = Binary64.ofNat (code op')) :
  op = op'
  := by
  have heq := Binary64.eq_of_ofNat_eq (hcode op).1 (hcode op').1 h
  have hback := (hcode op).2
  rw [heq, (hcode op').2] at hback
  apply Option.some.inj hback.symm

namespace NodeKind

/-- The position that a variable or function has in its table. -/
def index? : NodeKind → Option Nat
  | .variable index => some index
  | .function index => some index
  | _ => none

/-- Whether the payload of a node is exact. -/
def IsExact (kind : NodeKind) : Prop :=
  ∀ index ∈ kind.index?, index < 2 ^ 53

instance (kind : NodeKind) : Decidable kind.IsExact :=
  inferInstanceAs (Decidable (∀ index ∈ kind.index?, index < 2 ^ 53))

/-- A kind with an exact payload is determined by its tag and its payload. -/
theorem eq_of_tag_eq {kind kind' : NodeKind} (hexact : kind.IsExact) (hexact' : kind'.IsExact)
    (htag : kind.tag = kind'.tag) (hpayload : kind.payload = kind'.payload) :
  kind = kind'
  := by
  cases kind with
  | hole =>
    cases kind' with
    | hole => rfl
    | _ => cases htag
  | separator =>
    cases kind' with
    | separator => rfl
    | _ => cases htag
  | binary op =>
    cases kind' with
    | binary op' => rw [eq_of_payload_eq BinaryOp.ofCode?_code hpayload]
    | _ => cases htag
  | unary op =>
    cases kind' with
    | unary op' => rw [eq_of_payload_eq UnaryOp.ofCode?_code hpayload]
    | _ => cases htag
  | control op =>
    cases kind' with
    | control op' => rw [eq_of_payload_eq ControlOp.ofCode?_code hpayload]
    | _ => cases htag
  | number value =>
    cases kind' with
    | number value' => exact congrArg number hpayload
    | _ => cases htag
  | «variable» index =>
    cases kind' with
    | «variable» index' =>
      rw [Binary64.eq_of_ofNat_eq (hexact index rfl) (hexact' index' rfl) hpayload]
    | _ => cases htag
  | function index =>
    cases kind' with
    | function index' =>
      rw [Binary64.eq_of_ofNat_eq (hexact index rfl) (hexact' index' rfl) hpayload]
    | _ => cases htag

end NodeKind

/-! ### Unfoldings -/

/-- Unfoldings that agree show the same shape, if their payloads are exact. -/
theorem Unfolding.exists_shows_of_sameShape {u v : Unfolding} (h : u.sameShape v)
    (hu : ∀ kind ∈ u.kinds, kind.IsExact) (hv : ∀ kind ∈ v.kinds, kind.IsExact) :
  ∃ s, u.Shows s ∧ v.Shows s
  := by
  induction u generalizing v with
  | absent =>
    cases v with
    | absent => exact ⟨.absent, .absent, .absent⟩
    | _ => cases h
  | dangling id => cases h
  | cut id => cases h
  | node id kind left right ihl ihr =>
    cases v with
    | node id' kind' left' right' =>
      simp only [sameShape, Bool.and_eq_true, beq_iff_eq] at h
      obtain ⟨⟨⟨htag, hpayload⟩, hleft⟩, hright⟩ := h
      simp only [kinds, List.forall_mem_cons, List.forall_mem_append] at hu hv
      obtain ⟨hkind, hul, hur⟩ := hu
      obtain ⟨hkind', hvl, hvr⟩ := hv
      obtain ⟨l, hl, hl'⟩ := ihl hleft hul hvl
      obtain ⟨r, hr, hr'⟩ := ihr hright hur hvr
      obtain rfl := NodeKind.eq_of_tag_eq hkind hkind' htag hpayload
      exact ⟨.node kind l r, .node id hl hr, .node id' hl' hr'⟩
    | _ => cases h

namespace Tree

variable {t : Tree}

/-- What is seen along a link whose target can be reached is made of nodes that can be reached. -/
theorem exists_reachable_of_mem_unfoldTo {depth : Nat} {link : Option NodeId} {kind : NodeKind}
    (hlink : ∀ id ∈ link, t.Reachable id) (h : kind ∈ (t.unfoldTo depth link).kinds) :
  ∃ id n, t.Reachable id ∧ t.get? id = some n ∧ n.kind = kind
  := by
  induction depth generalizing link with
  | zero =>
    cases link with
    | none => cases h
    | some id =>
      rw [unfoldTo] at h
      split at h <;> cases h
  | succ depth ih =>
    cases link with
    | none => cases h
    | some id =>
      have hid := hlink id rfl
      cases hget : t.get? id with
      | none =>
        rw [unfoldTo, hget] at h
        cases h
      | some n =>
        simp only [unfoldTo, hget, Unfolding.kinds, List.mem_cons, List.mem_append] at h
        rcases h with rfl | h | h
        · exact ⟨id, n, hid, hget, rfl⟩
        · apply ih _ h
          intro child hchild
          apply @Reachable.target t (id, .left) child hid
          rw [target?, hget]
          apply hchild
        · apply ih _ h
          intro child hchild
          apply @Reachable.target t (id, .right) child hid
          rw [target?, hget]
          apply hchild

/-- The positions that the nodes of a tree refer to are exact as payloads, for every node that can
be reached. -/
def ExactIndices (t : Tree) : Prop :=
  ∀ id n, t.Reachable id → t.get? id = some n → n.kind.IsExact

/-- The walk of verification meets the nodes that can be reached. -/
theorem exactIndices_iff :
  t.ExactIndices ↔ ∀ id ∈ t.visits.map Visit.id, ∀ n ∈ t.get? id, n.kind.IsExact
  := by
  simp only [mem_visits_iff, Option.mem_def]
  constructor
  · intro h id hid n hget
    apply h id n hid hget
  · intro h id n hid hget
    apply h id hid n hget

instance (t : Tree) : Decidable t.ExactIndices :=
  decidable_of_iff' _ exactIndices_iff

theorem ExactIndices.forall_kinds (h : t.ExactIndices) :
  ∀ kind ∈ t.unfolding.kinds, kind.IsExact
  := by
  intro kind hkind
  have hroot : ∀ id ∈ t.root, t.Reachable id := fun id hid => .root hid
  obtain ⟨id, n, hreachable, hget, rfl⟩ := exists_reachable_of_mem_unfoldTo hroot hkind
  apply h id n hreachable hget

end Tree

/-! ### Lowering -/

/-- Two errors are of one kind: they differ at most in the positions that they name. -/
inductive LoweringError.SameKind : LoweringError → LoweringError → Prop where
  | missingRoot : SameKind .missingRoot .missingRoot
  | dangling (id id' : NodeId) : SameKind (.dangling id) (.dangling id')
  | noLowering (id id' : NodeId) (kind : NodeKind) :
      SameKind (.noLowering id kind) (.noLowering id' kind)
  | malformed (id id' : NodeId) (malformation : Malformation) :
      SameKind (.malformed id malformation) (.malformed id' malformation)

/-- Two lowerings come to the same: to one result, or to errors of one kind. -/
inductive Agree {α : Type} : Except LoweringError α → Except LoweringError α → Prop where
  | ok (a : α) : Agree (.ok a) (.ok a)
  | error {error error' : LoweringError} (h : error.SameKind error') :
      Agree (.error error) (.error error')

namespace Agree

variable {α β : Type}

theorem malformed (id id' : NodeId) (malformation : Malformation) :
  Agree (.error (.malformed id malformation) : Except LoweringError α)
    (.error (.malformed id' malformation))
  := error (.malformed id id' malformation)

theorem noLowering (id id' : NodeId) (kind : NodeKind) :
  Agree (.error (.noLowering id kind) : Except LoweringError α) (.error (.noLowering id' kind))
  := error (.noLowering id id' kind)

theorem bind {x y : Except LoweringError α} {f g : α → Except LoweringError β} (h : Agree x y)
    (hfg : ∀ a, Agree (f a) (g a)) :
  Agree (x >>= f) (y >>= g)
  := by
  cases h with
  | ok a => apply hfg
  | error h => apply error h

theorem map {x y : Except LoweringError α} {f : α → β} (h : Agree x y) :
  Agree (x >>= fun a => return f a) (y >>= fun a => return f a)
  := h.bind fun a => ok (f a)

end Agree

/-- The variables that are mentioned can be read off the shape. -/
theorem Unfolding.Shows.mentioned_eq {u v : Unfolding} {s : Shape} (hu : u.Shows s)
    (hv : v.Shows s) :
  u.mentioned = v.mentioned
  := by
  induction hu generalizing v with
  | absent =>
    cases hv
    rfl
  | node id hleft hright ihl ihr =>
    cases hv with
    | node id' hleft' hright' => simp only [mentioned, ihl hleft', ihr hright']

namespace Lower

variable {entry : Nat}

theorem slot_agree {u v : Unfolding} {s : Shape} (parent parent' : NodeId) (hu : u.Shows s)
    (hv : v.Shows s) :
  Agree (slot parent u) (slot parent' v)
  := by
  cases hu with
  | absent =>
    cases hv
    apply Agree.malformed
  | @node id kind _ _ _ _ _ _ =>
    cases hv
    cases kind with
    | «variable» index => apply Agree.ok
    | _ => apply Agree.malformed

theorem slots_agree {u v : Unfolding} {s : Shape} (parent parent' : NodeId) (hu : u.Shows s)
    (hv : v.Shows s) :
  Agree (slots parent u) (slots parent' v)
  := by
  induction hu generalizing v with
  | absent =>
    cases hv
    apply Agree.ok
  | node id hleft hright ihl ihr =>
    cases hv with
    | node id' hleft' hright' =>
      apply (slot_agree parent parent' hleft hleft').bind
      intro first
      apply (ihr hright').map

mutual

theorem expression_agree :
  ∀ {u v : Unfolding} {s : Shape} (parent parent' : NodeId), u.Shows s → v.Shows s →
    Agree (expression entry parent u) (expression entry parent' v)
  | _, _, _, parent, parent', .absent, .absent => Agree.malformed parent parent' .missingChild
  | _, _, _, _, _, @Unfolding.Shows.node id kind left right l r hleft hright,
      @Unfolding.Shows.node id' _ left' right' _ _ hleft' hright' => by
      have hfirst : Agree (expression entry id left) (expression entry id' left') :=
        expression_agree id id' hleft hleft'
      have hsecond : Agree (expression entry id right) (expression entry id' right') :=
        expression_agree id id' hright hright'
      cases kind with
      | hole => apply Agree.noLowering
      | separator => apply Agree.malformed
      | binary op =>
        cases op with
        | assign => apply Agree.malformed
        | arithmetic op =>
          apply hfirst.bind
          intro first
          apply hsecond.map
        | comparison op =>
          apply hfirst.bind
          intro first
          apply hsecond.map
      | unary op =>
        cases op with
        | math op => apply hsecond.map
        | output op => apply Agree.malformed
        | ret => apply Agree.malformed
        | input => apply (slot_agree id id' hright hright').map
      | control op => apply Agree.malformed
      | number value => apply Agree.ok
      | «variable» index => apply Agree.ok
      | function index =>
        cases hleft with
        | absent =>
          cases hleft'
          simp only [expression, hright.mentioned_eq hright']
          apply (arguments_agree hright hright').map
        | node _ _ _ =>
          cases hleft'
          apply Agree.malformed

theorem arguments_agree :
  ∀ {u v : Unfolding} {s : Shape}, u.Shows s → v.Shows s →
    Agree (arguments entry u) (arguments entry v)
  | _, _, _, .absent, .absent => Agree.ok []
  | _, _, _, .node id .absent hright, .node id' .absent hright' =>
      (arguments_agree hright hright').map
  | _, _, _, .node id hleft@(.node _ _ _) hright, .node id' hleft'@(.node _ _ _) hright' => by
      apply (expression_agree id id' hleft hleft').bind
      intro first
      apply (arguments_agree hright hright').map

end

mutual

theorem statement_agree :
  ∀ {u v : Unfolding} {s : Shape} (numbering : Numbering), u.Shows s → v.Shows s →
    Agree (statement entry u numbering) (statement entry v numbering)
  | _, _, _, numbering, .absent, .absent => Agree.ok ([], numbering)
  | _, _, _, numbering, @Unfolding.Shows.node id kind left right l r hleft hright,
      @Unfolding.Shows.node id' _ left' right' _ _ hleft' hright' => by
      have htest : Agree (expression entry id left) (expression entry id' left') :=
        expression_agree id id' hleft hleft'
      have hvalue : Agree (expression entry id right) (expression entry id' right') :=
        expression_agree id id' hright hright'
      cases kind with
      | hole => apply Agree.noLowering
      | separator => apply Agree.malformed
      | binary op =>
        cases op with
        | assign =>
          apply hvalue.bind
          intro value
          apply (slot_agree id id' hleft hleft').map
        | arithmetic op => apply Agree.malformed
        | comparison op => apply Agree.malformed
      | unary op =>
        cases op with
        | math op => apply Agree.malformed
        | output op => apply hvalue.map
        | ret => apply hvalue.map
        | input => apply (slot_agree id id' hright hright').map
      | control op =>
        cases hleft with
        | absent =>
          cases hleft'
          apply Agree.malformed
        | node _ _ _ =>
          cases hleft' with
          | node _ _ _ =>
            cases hright with
            | absent =>
              cases hright'
              apply Agree.malformed
            | @node arms kind _ _ _ _ hconsequence halternative =>
              cases hright' with
              | node arms' hconsequence' halternative' =>
                by_cases hkind : kind = .separator
                · subst hkind
                  cases op with
                  | branch =>
                    apply htest.bind
                    intro test
                    apply (statements_agree _ hconsequence hconsequence').bind
                    rintro ⟨consequence, middle⟩
                    apply (statements_agree middle halternative halternative').map
                  | loop =>
                    apply htest.bind
                    intro test
                    apply (statements_agree _ hconsequence hconsequence').map
                · simp only [statement, ne_eq, hkind, not_false_eq_true, if_true]
                  apply Agree.malformed
      | number value => apply Agree.malformed
      | «variable» index => apply Agree.malformed
      | function index =>
        cases hleft with
        | absent =>
          cases hleft'
          simp only [statement, hright.mentioned_eq hright']
          apply (arguments_agree hright hright').map
        | node _ _ _ =>
          cases hleft'
          apply Agree.malformed

theorem statements_agree :
  ∀ {u v : Unfolding} {s : Shape} (numbering : Numbering), u.Shows s → v.Shows s →
    Agree (statements entry u numbering) (statements entry v numbering)
  | _, _, _, numbering, .absent, .absent => Agree.ok ([], numbering)
  | _, _, _, numbering, .node id hleft hright, .node id' hleft' hright' => by
      apply (statement_agree numbering hleft hleft').bind
      rintro ⟨first, middle⟩
      apply (statements_agree middle hright hright').map

end

/-- Whether a body ends with a return can be read off the shape. -/
theorem endsWithReturn_agree {u v : Unfolding} {s : Shape} (hu : u.Shows s) (hv : v.Shows s) :
  endsWithReturn u = endsWithReturn v
  := by
  induction hu generalizing v with
  | absent =>
    cases hv
    rfl
  | node id hleft hright ihl ihr =>
    cases hv with
    | node id' hleft' hright' =>
      cases hright with
      | absent =>
        cases hright'
        cases hleft with
        | absent =>
          cases hleft'
          rfl
        | @node _ kind _ _ _ _ _ _ =>
          cases hleft'
          cases kind with
          | unary op => cases op <;> rfl
          | _ => rfl
      | node _ _ _ =>
        have hlast := ihr hright'
        cases hright'
        apply hlast

theorem definitions_agree {u v : Unfolding} {s : Shape} (numbering : Numbering) (hu : u.Shows s)
    (hv : v.Shows s) :
  Agree (definitions entry u numbering) (definitions entry v numbering)
  := by
  induction hu generalizing v numbering with
  | absent =>
    cases hv
    apply Agree.ok
  | @node id kind left right l r hleft hright ihl ihr =>
    cases hv with
    | node id' hleft' hright' =>
      cases kind with
      | function index =>
        cases hleft with
        | absent =>
          cases hleft'
          apply Agree.malformed
        | node _ hbody hparameters =>
          cases hleft' with
          | node _ hbody' hparameters' =>
            apply Agree.bind
            · apply (slots_agree id id' hparameters hparameters').bind
              intro slots
              apply (statements_agree numbering hbody hbody').bind
              rintro ⟨code, next⟩
              dsimp only
              rw [endsWithReturn_agree hbody hbody']
              apply Agree.ok
            · rintro ⟨first, middle⟩
              apply (ihr middle hright').map
      | _ => apply Agree.malformed

theorem program_agree {u v : Unfolding} {s : Shape} (numbering : Numbering) (hu : u.Shows s)
    (hv : v.Shows s) :
  Agree (program u numbering) (program v numbering)
  := by
  cases hu with
  | absent =>
    cases hv
    apply Agree.error .missingRoot
  | @node id kind left right l r hleft hright =>
    cases hv with
    | node id' hleft' hright' =>
      cases kind with
      | function index =>
        cases hleft with
        | absent =>
          cases hleft'
          apply Agree.malformed
        | node _ hbody hparameters =>
          cases hleft' with
          | node _ hbody' hparameters' =>
            apply (definitions_agree numbering hright hright').bind
            rintro ⟨functions, middle⟩
            apply (statements_agree middle hbody hbody').map
      | _ => apply Agree.malformed

end Lower

/-! ### Generated code -/

/-- Shape determines code.  Trees of the same shape, whose nodes refer to positions in the tables
that are exact as payloads, have the same code, or they have none because of errors of one kind. -/
theorem generate_of_sameShape {t u : Tree} (hshape : t.sameShape u) (ht : t.ExactIndices)
    (hu : u.ExactIndices) (listing : Listing) :
  (∃ code, (generate t listing).result = .ok code ∧ (generate u listing).result = .ok code)
    ∨ ∃ error error', (generate t listing).result = .error (.lower error)
      ∧ (generate u listing).result = .error (.lower error') ∧ error.SameKind error'
  := by
  obtain ⟨s, hts, hus⟩ :=
    Unfolding.exists_shows_of_sameShape hshape ht.forall_kinds hu.forall_kinds
  have hlower : Agree (t.unfolding.lower listing) (u.unfolding.lower listing) :=
    (Lower.program_agree listing.numbering hts hus).map
  have htu : t.Unfolds t.root t.unfolding := Tree.unfolds_of_shows hts
  have huu : u.Unfolds u.root u.unfolding := Tree.unfolds_of_shows hus
  rw [htu.result_generate, huu.result_generate]
  generalize t.unfolding.lower listing = result, u.unfolding.lower listing = result' at hlower
  cases hlower with
  | ok code => exact .inl ⟨code, rfl, rfl⟩
  | error hkind => exact .inr ⟨_, _, rfl, rfl, hkind⟩

/-- A program that prints the sum of a leaf and itself, with one node for both operands. -/
def sharedOutput (leaf : NodeKind) : Tree where
  nodes := #[{ kind := leaf },
    { kind := .binary (.arithmetic .add), left := some 0, right := some 0 },
    { kind := .unary (.output .out), right := some 1 },
    { kind := .separator, left := some 2 },
    { kind := .separator, left := some 3 },
    { kind := .function 0, left := some 4 }]
  root := some 5

/-- The same program with a node for each operand, the topmost node first, and a node that cannot be
reached. -/
def spreadOutput (leaf : NodeKind) : Tree where
  nodes := #[{ kind := .function 0, left := some 1 },
    { kind := .separator, left := some 2 },
    { kind := .separator, left := some 3 },
    { kind := .unary (.output .out), right := some 5 },
    { kind := .function (2 ^ 60) },
    { kind := .binary (.arithmetic .add), left := some 7, right := some 6 },
    { kind := leaf },
    { kind := leaf }]
  root := some 0

/-- The two programs have the same code with a variable as the leaf, and none with a hole. -/
theorem generate_of_sameShape_output :
  (∃ code, (generate (sharedOutput (.variable 3)) {}).result = .ok code
      ∧ (generate (spreadOutput (.variable 3)) {}).result = .ok code)
    ∧ ∃ error error', (generate (sharedOutput .hole) {}).result = .error (.lower error)
      ∧ (generate (spreadOutput .hole) {}).result = .error (.lower error')
      ∧ error.SameKind error'
  := by
  have hok : (generate (sharedOutput (.variable 3)) {}).result.toOption.isSome := by
    decide +kernel
  have hnone : (generate (sharedOutput .hole) {}).result.toOption.isNone := by
    decide +kernel
  constructor
  · apply (@generate_of_sameShape (sharedOutput (.variable 3)) (spreadOutput (.variable 3))
      (by decide +kernel) (by decide +kernel) (by decide +kernel) {}).resolve_right
    rintro ⟨error, error', herror, -⟩
    rw [herror] at hok
    cases hok
  · apply (@generate_of_sameShape (sharedOutput .hole) (spreadOutput .hole)
      (by decide +kernel) (by decide +kernel) (by decide +kernel) {}).resolve_left
    rintro ⟨code, hcode, -⟩
    rw [hcode] at hnone
    cases hnone

end StackCompiler
