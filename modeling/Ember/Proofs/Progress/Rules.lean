import Ember.Proofs.Progress

/-!
# Every rule of the grammar, with rules that agree on less
-/

set_option autoImplicit false

namespace Ember

structure Grammar.Accords (w : Nat) (g g' : Grammar) : Prop where
  expr : ∀ structs, Agreeing w (g.expr structs) (g'.expr structs)
  unary : ∀ structs, Agreeing w (g.unary structs) (g'.unary structs)
  ifExpr : ∀ s : Stream, s.weight < w → s.atToken (.keyword .kwIf) = true →
    AgreeAt g.ifExpr g'.ifExpr s
  block : ∀ group : Group, group.weight + 1 < w → ∀ v,
    Agreeing v (g.block group) (g'.block group)
  type : ∀ code, Agreeing w (g.type code) (g'.type code)
  pat : ∀ code, Agreeing w (g.pat code) (g'.pat code)

namespace Grammar

open Ember.Parser

variable {g g' : Grammar} {w : Nat}

theorem missingExpr_onwards (code : IssueCode) :
    Onwards (do return Expr.missing (← missing code)) :=
  (missing_onwards code).bind fun _ => .pure _

theorem exprOr_agreeing {p p' : Parser Expr} (h : Agreeing w p p') (code : IssueCode) :
    Agreeing w (exprOr p code) (exprOr p' code) := by
  refine .after (look_onwards _) fun found => ?_
  split
  · exact h
  · exact (missingExpr_onwards code).agreeing

theorem Accords.exprOr (h : g.Accords w g') (structs : Bool) (code : IssueCode) :
    Agreeing w (Grammar.exprOr (g.expr structs) code) (Grammar.exprOr (g'.expr structs) code) :=
  exprOr_agreeing (h.expr structs) code

/-- What ends with the span up to here. -/
theorem spanFrom_onwards {α : Type} (start : Span) (f : Span → α) :
    Onwards (do return f (← look (·.spanFrom start))) := (look_onwards _).bind fun _ => .pure _

/-! ## Types and patterns -/

theorem ident_startAt {code : IssueCode} {s : Stream} (light : s.weight < w + 1) :
    AgreeAt (ident code) (ident code) s ∧ (s.atToken .ident = true → MovesAt (ident code) s) := by
  refine accept_startAt light (fun t => (identOf_onwards t 0).agreeing) (Onwards.agreeing ?_)
  refine (acceptAny_onwards _).bind fun found => ?_
  cases found with
  | some t => exact (raise_onwards _ _).bind fun _ => identOf_onwards t 0
  | none => exact (missing_onwards code).bind fun _ => .pure _

theorem arrayType_agreeing (h : g.Accords w g') :
    Agreeing w (arrayType g) (arrayType g') := by
  refine .bind (h.type _) fun of => .after (accept_onwards _) fun found => ?_
  have rest (len : Expr) : Onwards (do finish; return (of, len)) :=
    finish_onwards.bind fun _ => .pure _
  cases found with
  | some _ => exact .bind (h.exprOr true _) fun len => (rest len).agreeing
  | none => exact .after (missing_onwards _) fun _ => (rest _).agreeing

theorem typeArgs_agreeing (h : g.Accords w g') {group : Group} (light : group.weight + 1 < w)
    (v : Nat) : Agreeing v (typeArgs g group) (typeArgs g' group) :=
  .map (commaList_agreeing (by omega) (h.type _) _ _) _

/-- Where a type starts, a node is read. -/
theorem typeAtom_startAt (h : g.Accords w g') {s : Stream} (light : s.weight < w + 1) :
    AgreeAt (typeAtom g) (typeAtom g') s ∧
      (s.atGroup .lbracket = true ∨ s.atToken .ident = true → MovesAt (typeAtom g) s) := by
  refine (acceptGroup_picks _).opens light (fun group n same size => ?_) fun run => ?_
  · rw [same, tokens_length_group] at size
    exact .bind (inside_agreeing (by omega) (arrayType_agreeing h)) fun _ => .pure _
  have name : s.atGroup .lbracket = true ∨ s.atToken .ident = true → s.atToken .ident = true := by
    rintro (group | token)
    · unfold Stream.atGroup at group
      split at group
      · rename_i rest
        simp only [acceptGroup, rest, group, if_true] at run
        cases run
      · cases group
    · exact token
  refine (bind_startAt light (ident_startAt light) fun name => ?_).imp_right fun moves start =>
    moves (name start)
  refine acceptGroup_agreeing (fun group light => ?_) (spanFrom_onwards _ _).agreeing
  exact .bind (typeArgs_agreeing h light w) fun _ => (spanFrom_onwards _ _).agreeing

theorem typeAtomOr_agreeing (h : g.Accords w g') (code : IssueCode) :
    Agreeing (w + 1) (typeAtomOr g code) (typeAtomOr g' code) := by
  refine .after (look_onwards _) fun found => ?_
  split
  · exact fun s light => (typeAtom_startAt h light).1
  · exact ((missing_onwards code).bind fun _ => .pure _).agreeing

theorem alternatives_agreeing (h : g.Accords w g') (n : Nat) :
    Agreeing (w + 1) (alternatives g n) (alternatives g' n) := by
  induction n with
  | zero => exact .pure _
  | succ n ih =>
    refine .after (accept_onwards _) fun found => ?_
    cases found with
    | some _ => exact .bind (typeAtomOr_agreeing h _) fun _ => .bind ih fun _ => .pure _
    | none => exact .pure _

theorem typeRule_startAt (h : g.Accords w g') (code : IssueCode) {s : Stream}
    (light : s.weight < w + 1) :
    AgreeAt (typeRule g code) (typeRule g' code) s ∧
      (s.atGroup .lbracket = true ∨ s.atToken .ident = true → MovesAt (typeRule g code) s) := by
  refine look_startAt ?_
  by_cases start : s.atAny startsType = true
  · rw [if_pos start, if_pos start]
    refine bind_startAt light (typeAtom_startAt h light) fun first => .after (look_onwards _)
      fun n => .bind (alternatives_agreeing h n) fun others => ?_
    cases others with
    | nil => exact .pure _
    | cons _ _ => exact (spanFrom_onwards _ _).agreeing
  · rw [if_neg start, if_neg start]
    refine ⟨((missing_onwards code).bind fun _ => .pure _).agreeing s light, fun found => ?_⟩
    exfalso
    refine start ?_
    rcases found with group | token
    · unfold Stream.atGroup at group
      split at group
      · rename_i rest
        simp [Stream.atAny, Stream.anyKind?, Stream.peek?, rest, Node.kind, Node.first,
          beq_iff_eq.mp group, startsType]
      · cases group
    · obtain ⟨t, ns, rest, same⟩ := Stream.rest_of_atToken token
      simp [Stream.atAny, Stream.anyKind?, Stream.peek?, rest, Node.kind, Node.first, same,
        startsType]

theorem literal_onwards (t : Token) (negate : Bool) : Onwards (literal t negate) := by
  unfold literal
  split
  · exact .pure _
  · exact (raise_onwards _ _).bind fun _ => .pure _

theorem fieldPat_agreeing (h : g.Accords w g') : Agreeing w (fieldPat g) (fieldPat g') := by
  refine .after (ident_onwards _) fun field => .after (accept_onwards _) fun found => ?_
  cases found with
  | some _ => exact .bind (h.pat _) fun _ => .pure _
  | none => exact .pure _

theorem namedPat_agreeing (h : g.Accords w g') (t : Token) :
    Agreeing (w + 1) (namedPat g t) (namedPat g' t) := by
  refine .after (identOf_onwards t 0) fun name => acceptGroup_agreeing ?_ (.pure _)
  intro group light
  exact .bind (commaList_agreeing (by omega) (fieldPat_agreeing h) _ _) fun _ =>
    (spanFrom_onwards _ _).agreeing

theorem negativePat_onwards (t : Token) : Onwards (negativePat t) := by
  refine (acceptAny_onwards _).bind fun found => ?_
  cases found with
  | some number => exact (literal_onwards _ _).bind fun _ => spanFrom_onwards _ _
  | none => exact (missing_onwards _).bind fun _ => .pure _

theorem patAtom_starting (h : g.Accords w g') : Starting (w + 1) (patAtom g) (patAtom g') := by
  refine .look fun here => (acceptGroup_picks _).starting (fun group n same size => ?_) ?_
  · rw [same, tokens_length_group] at size
    exact .bind (commaList_agreeing (by omega) (h.pat _) _ _) fun _ => .pure _
  · refine .bind next_starting fun found => ?_
    rcases found with - | n
    · exact ((raise_onwards _ _).bind fun _ => .pure _).agreeing
    cases n with
    | group _ => exact ((raise_onwards _ _).bind fun _ => .pure _).agreeing
    | token t =>
      dsimp only
      split
      · exact .pure _
      · exact ((ident_onwards _).bind fun _ => spanFrom_onwards _ _).agreeing
      · exact namedPat_agreeing h t
      · exact (negativePat_onwards t).agreeing
      · exact ((literal_onwards t false).bind fun _ => .pure _).agreeing

theorem patRule_agreeing (h : g.Accords w g') (code : IssueCode) :
    Agreeing (w + 1) (patRule g code) (patRule g' code) := by
  refine .after (look_onwards _) fun found => ?_
  split
  · exact (patAtom_starting h).agreeing
  · exact ((missing_onwards code).bind fun _ => .pure _).agreeing

/-! ## Expressions without operators -/

theorem callArgs_agreeing (h : g.Accords w g') {group : Group} (light : group.weight + 1 < w)
    (v : Nat) : Agreeing v (callArgs g group) (callArgs g' group) :=
  .map (commaList_agreeing (by omega) (h.exprOr true _) _ _) _

theorem enclosed_agreeing (h : g.Accords w g') {group : Group} (light : group.weight + 1 < w)
    (code : IssueCode) (v : Nat) : Agreeing v (enclosed g group code) (enclosed g' group code) :=
  inside_agreeing (w := w) (by omega) <| .bind (h.exprOr true code) fun _ =>
    .after finish_onwards fun _ => .pure _

theorem groupExpr_agreeing (h : g.Accords w g') {group : Group} (light : group.weight + 1 < w)
    (v : Nat) : Agreeing v (groupExpr g group) (groupExpr g' group) := by
  unfold groupExpr
  split
  · exact .bind (enclosed_agreeing h light _ v) fun _ => .pure _
  · exact .bind (callArgs_agreeing h light v) fun _ => .pure _
  · exact .bind (h.block group light v) fun _ => .pure _
  · exact ((raise_onwards _ _).bind fun _ => .pure _).agreeing

theorem fieldInit_agreeing (h : g.Accords w g') :
    Agreeing w (fieldInit g) (fieldInit g') := by
  refine .after (ident_onwards _) fun name => .after (accept_onwards _) fun found => ?_
  cases found with
  | some _ => exact .bind (h.exprOr true _) fun _ => .pure _
  | none => exact .pure _

theorem structLit_agreeing (h : g.Accords w g') (structs : Bool) (head : StructHead) (start : Span)
    (plain : ExprKind) :
    Agreeing (w + 1) (structLit g structs head start plain)
      (structLit g' structs head start plain) := by
  unfold structLit
  split
  · refine acceptGroup_agreeing (fun group light => ?_) (.pure _)
    exact .bind (commaList_agreeing (by omega) (fieldInit_agreeing h) _ _) fun _ =>
      (spanFrom_onwards _ _).agreeing
  · exact .pure _

theorem blockOr_agreeing (h : g.Accords w g') (code : IssueCode) :
    Agreeing (w + 1) (blockOr g code) (blockOr g' code) :=
  acceptGroup_agreeing (fun group light => h.block group light w)
    ((missing_onwards code).bind fun _ => .pure _).agreeing

theorem elseBranch_agreeing (h : g.Accords w g') :
    Agreeing (w + 1) (elseBranch g) (elseBranch g') := by
  refine accept_agreeing (fun _ s light => .look ?_) (.pure _)
  split
  · rename_i found
    exact (h.ifExpr s light found).bind fun _ => .pure _ _
  · exact acceptGroup_within (fun group light => .bind (h.block group light w) fun _ => .pure _)
      ((missing_onwards _).bind fun _ => .pure _).agreeing s light

/-- A keyword that is there is read, and leaves fewer tokens to what follows. -/
theorem keyword_startAt {α : Type} {kind : TokenKind} {code : IssueCode} {q q' : Token → Parser α}
    {s : Stream} (light : s.weight < w + 1) (found : s.atToken kind = true)
    (h : ∀ t, Agreeing w (q t) (q' t)) :
    AgreeAt (expect kind code >>= q) (expect kind code >>= q') s ∧
      MovesAt (expect kind code >>= q) s := by
  obtain ⟨t, ns, rest, rfl⟩ := Stream.rest_of_atToken found
  refine read_startAt light rest ?_ (h t)
  simp only [expect, accept, acceptAny, rest, run_bind, beq_self_eq_true, if_true]
  rfl

theorem ifRule_startAt (h : g.Accords w g') {s : Stream} (light : s.weight < w + 1)
    (found : s.atToken (.keyword .kwIf) = true) :
    AgreeAt (ifRule g) (ifRule g') s ∧ MovesAt (ifRule g) s :=
  keyword_startAt light found fun _ => .bind (h.exprOr false _) fun _ =>
    .bind ((blockOr_agreeing h _).mono (Nat.le_succ w)) fun _ =>
      .bind ((elseBranch_agreeing h).mono (Nat.le_succ w)) fun _ => (spanFrom_onwards _ _).agreeing

theorem matchArm_agreeing (h : g.Accords w g') : Agreeing w (matchArm g) (matchArm g') :=
  .bind (h.pat _) fun _ => .after (expect_onwards _ _) fun _ => .bind (h.exprOr true _) fun _ =>
    .pure _

theorem matchExpr_startAt (h : g.Accords w g') {s : Stream} (light : s.weight < w + 1)
    (found : s.atToken (.keyword .kwMatch) = true) :
    AgreeAt (matchExpr g) (matchExpr g') s ∧ MovesAt (matchExpr g) s := by
  refine keyword_startAt light found fun start => .bind (h.exprOr false _) fun subject => ?_
  refine acceptGroup_within (fun group light => ?_) ?_
  · exact .bind (.map (commaList_agreeing (by omega) (matchArm_agreeing h) _ _) _) fun _ =>
      (spanFrom_onwards _ _).agreeing
  · exact .after (missing_onwards _) fun _ => (spanFrom_onwards _ _).agreeing

/-- A name that may stand here, and what follows it. -/
theorem optionalName_agreeing {α : Type} {kind : TokenKind} {sign : Nat}
    {q q' : Option Ident → Parser α} (h : ∀ name, Agreeing w (q name) (q' name)) :
    Agreeing w
      (do
        let name ← match ← accept kind with
          | some t => some <$> identOf t sign
          | .none => pure .none
        q name)
      (do
        let name ← match ← accept kind with
          | some t => some <$> identOf t sign
          | .none => pure .none
        q' name) := by
  refine .after (accept_onwards kind) fun found => ?_
  cases found with
  | some t => exact .bind (Agreeing.map (identOf_onwards t sign).agreeing _) h
  | none => exact h .none

theorem forExpr_startAt (h : g.Accords w g') {s : Stream} (light : s.weight < w + 1) :
    AgreeAt (forExpr g) (forExpr g') s ∧
      (s.atToken .label = true ∨ s.atToken (.keyword .kwFor) = true → MovesAt (forExpr g) s) := by
  have body := (blockOr_agreeing h .expectedBlock).mono (Nat.le_succ w)
  refine look_startAt (accept_opens light (fun t => ?_) fun absent => ?_)
  · refine .bind (Agreeing.map (identOf_onwards t 1).agreeing _) fun label =>
      .after (accept_onwards _) fun found => ?_
    cases found with
    | some _ =>
      exact .bind (h.pat _) fun _ => .after (expect_onwards _ _) fun _ =>
        .bind (h.exprOr false _) fun _ => .bind body fun _ => (spanFrom_onwards _ _).agreeing
    | none => exact .after (missing_onwards _) fun _ => (spanFrom_onwards _ _).agreeing
  · simp only [pure_bind]
    refine And.imp_right (fun moves found => moves (found.resolve_left (by simp [absent])))
      (accept_startAt light (fun _ => ?_) ?_)
    · exact .bind (h.pat _) fun _ => .after (expect_onwards _ _) fun _ =>
        .bind (h.exprOr false _) fun _ => .bind body fun _ => (spanFrom_onwards _ _).agreeing
    · exact .after (missing_onwards _) fun _ => (spanFrom_onwards _ _).agreeing

theorem sourceParts_agreeing (h : g.Accords w g') (n : Nat) :
    Agreeing w (sourceParts g n) (sourceParts g' n) := by
  induction n with
  | zero => exact .pure _
  | succ n ih =>
    refine next_picks.within (fun m n same size => ?_) (.pure _)
    subst same
    cases m with
    | token t =>
      dsimp only
      split
      · exact .bind ih fun _ => .pure _
      · exact .after (raise_onwards _ _) fun _ => ih
    | group group =>
      rw [tokens_length_group] at size
      dsimp only
      split
      · exact .bind (enclosed_agreeing h (by omega) _ w) fun _ => .bind ih fun _ => .pure _
      · exact .after (raise_onwards _ _) fun _ => ih

theorem sourceExpr_startAt (h : g.Accords w g') {s : Stream} (light : s.weight < w + 1)
    (found : s.atToken (.keyword .kwSource) = true) :
    AgreeAt (sourceExpr g) (sourceExpr g') s ∧ MovesAt (sourceExpr g) s := by
  refine keyword_startAt light found fun start => optionalName_agreeing fun target => ?_
  refine acceptGroup_within (fun group light => ?_) ?_
  · exact .bind (inside_agreeing (by omega) (sourceParts_agreeing h _)) fun _ =>
      (spanFrom_onwards _ _).agreeing
  · exact .after (missing_onwards _) fun _ => (spanFrom_onwards _ _).agreeing

/-- An expression starts here, with no bracket that is no group. -/
structure Starts (s : Stream) : Prop where
  start : atExpr s = true
  leaf : ∀ t ns, s.rest = .token t :: ns → t.kind.isOpenBracket = false

/-- An expression starts here, with neither a range nor an operator before its operand. -/
structure Begins (s : Stream) : Prop extends Starts s where
  noDots : s.atToken .dotDot = false
  noSign : s.kind?.bind UnaryOp.ofToken? = .none

theorem tokenExpr_startAt (h : g.Accords w g') (structs : Bool) {s : Stream}
    (light : s.weight < w + 1) {t : Token} {ns : List Node} (rest : s.rest = .token t :: ns) :
    AgreeAt (tokenExpr g structs t) (tokenExpr g' structs t) s ∧
      (Begins s → MovesAt (tokenExpr g structs t) s) := by
  have found {kind : TokenKind} (same : t.kind = kind) : s.atToken kind = true := by
    simp [Stream.atToken, Stream.kind?, rest, same]
  have always {p p' : Parser Expr} (both : AgreeAt p p' s ∧ MovesAt p s) :
      AgreeAt p p' s ∧ (Begins s → MovesAt p s) := ⟨both.1, fun _ => both.2⟩
  unfold tokenExpr
  split
  · exact always (next_startAt light rest (.after (identOf_onwards t 0) fun _ =>
      (structLit_agreeing h structs _ _ _).mono (Nat.le_succ w)))
  · exact always (next_startAt light rest (.after (identOf_onwards t 1) fun _ =>
      (structLit_agreeing h structs _ _ _).mono (Nat.le_succ w)))
  · exact always (next_startAt light rest (.after (identOf_onwards t 1) fun _ => .pure _))
  · exact always (next_startAt light rest (.after (identOf_onwards t 1) fun _ => .pure _))
  · rename_i kind
    exact always (ifRule_startAt h light (found kind))
  · rename_i kind
    exact always (matchExpr_startAt h light (found kind))
  · rename_i kind
    exact (forExpr_startAt h light).imp_right fun moves _ => moves (.inr (found kind))
  · rename_i kind
    exact (forExpr_startAt h light).imp_right fun moves _ => moves (.inl (found kind))
  · rename_i kind
    exact always (sourceExpr_startAt h light (found kind))
  split
  · exact always (next_startAt light rest (.after (literal_onwards _ _) fun _ => .pure _))
  split
  · exact always (next_startAt light rest (.after (raise_onwards _ _) fun _ => .pure _))
  split
  · exact always (next_startAt light rest (.after (raise_onwards _ _) fun _ =>
      .after (identOf_onwards _ _) fun _ => .pure _))
  · refine ⟨(missingExpr_onwards _).agreeing s light, fun begins => ?_⟩
    -- Every token that starts an expression is one of those above, a range or a sign.
    have start := begins.start
    have leaf := begins.leaf t ns rest
    have noDots := begins.noDots
    have noSign := begins.noSign
    simp only [atExpr, Stream.atAny, Stream.anyKind?, Stream.peek?, Stream.kind?, rest,
      Stream.atToken, Node.kind, Node.first, List.head?_cons, Option.map_some, Option.getD_some,
      Option.bind_some] at start noDots noSign
    have signs : ∀ o ∈ [Operator.minus, .bang, .hash], UnaryOp.ofToken? (.op o) ≠ .none := by decide
    exfalso
    unfold startsExpr at start
    split at start <;> simp_all [TokenKind.isOpenBracket]

theorem primary_startAt (h : g.Accords w g') (structs : Bool) {s : Stream}
    (light : s.weight < w + 1) :
    AgreeAt (primary g structs) (primary g' structs) s ∧
      (Begins s → MovesAt (primary g structs) s) := by
  cases rest : s.rest with
  | nil =>
    have run (g : Grammar) : primary g structs s =
        (do return Expr.missing (← missing .expectedExpression) : Parser Expr) s := by
      rw [primary, look_bind, Stream.peek?, rest]
      rfl
    refine ⟨⟨?_, (run g).trans (run g').symm⟩, fun begins => ?_⟩
    · rw [run]
      exact missingExpr_onwards _ s
    · have start := begins.start
      simp [atExpr, Stream.atAny, Stream.anyKind?, Stream.peek?, Stream.kind?, rest] at start
  | cons n ns =>
    cases n with
    | token t =>
      have run (g : Grammar) : primary g structs s = tokenExpr g structs t s := by
        rw [primary, look_bind, Stream.peek?, rest]
        rfl
      unfold AgreeAt MovesAt
      rw [run, run]
      exact tokenExpr_startAt h structs light rest
    | group group =>
      have run (g : Grammar) : primary g structs s = (next >>= fun _ => groupExpr g group) s := by
        rw [primary, look_bind, Stream.peek?, rest]
        rfl
      have size := Stream.weight_advance rest
      rw [tokens_length_group] at size
      have reads : AgreeAt (next >>= fun _ => groupExpr g group)
          (next >>= fun _ => groupExpr g' group) s ∧
          MovesAt (next >>= fun _ => groupExpr g group) s :=
        next_startAt light rest (groupExpr_agreeing h (by omega) w)
      obtain ⟨agree, moves⟩ := reads
      unfold AgreeAt MovesAt
      rw [run, run]
      exact ⟨agree, fun _ => moves⟩

theorem member_agreeing (h : g.Accords w g') (base : Expr) :
    Agreeing (w + 1) (member g base) (member g' base) := by
  refine .after (ident_onwards _) fun field => acceptGroup_agreeing (fun group light => ?_)
    (spanFrom_onwards _ _).agreeing
  exact .bind (.map (callArgs_agreeing h light w) _) fun _ => (spanFrom_onwards _ _).agreeing

theorem typedCall_agreeing (h : g.Accords w g') (base : Expr) {angle : Group}
    (light : angle.weight + 1 < w) :
    Agreeing w (typedCall g base angle) (typedCall g' base angle) := by
  refine .bind (typeArgs_agreeing h light w) fun types =>
    acceptGroup_within (fun group inner => ?_) ?_
  · exact .bind (callArgs_agreeing h inner w) fun _ => (spanFrom_onwards _ _).agreeing
  · exact .after (missing_onwards _) fun _ => (spanFrom_onwards _ _).agreeing

theorem postfixStep_agreeing (h : g.Accords w g') (base : Expr) :
    Agreeing (w + 1) (postfixStep g base) (postfixStep g' base) := by
  refine acceptGroup_agreeing (fun group light => ?_) ?_
  · exact .bind (callArgs_agreeing h light w) fun _ => .pure _
  refine acceptGroup_agreeing (fun angle light => ?_) ?_
  · exact .bind (typedCall_agreeing h base light) fun _ => .pure _
  refine accept_agreeing (fun _ => ?_) ?_
  · exact .bind ((member_agreeing h base).mono (Nat.le_succ w)) fun _ => .pure _
  refine acceptGroup_agreeing (fun group light => ?_) (.pure _)
  exact .bind (enclosed_agreeing h light _ w) fun _ => .pure _

theorem postfixes_agreeing (h : g.Accords w g') (n : Nat) (base : Expr) :
    Agreeing (w + 1) (postfixes g n base) (postfixes g' n base) := by
  induction n generalizing base with
  | zero => exact .pure _
  | succ n ih =>
    refine .bind (postfixStep_agreeing h base) fun found => ?_
    cases found with
    | some e => exact ih e
    | none => exact .pure _

theorem postfixed_startAt (h : g.Accords w g') (structs : Bool) {s : Stream}
    (light : s.weight < w + 1) :
    AgreeAt (postfixed g structs) (postfixed g' structs) s ∧
      (Begins s → MovesAt (postfixed g structs) s) := by
  refine bind_startAt light (primary_startAt h structs light) fun base => ?_
  split
  · exact .pure _
  · exact .after (look_onwards _) fun n => postfixes_agreeing h n base

/-! ## Operators -/

theorem operands_agreeing {p p' : Parser Expr} (h : Agreeing w p p') (tier : List BinaryOp)
    (n : Nat) (lhs : Expr) : Agreeing w (operands tier p n lhs) (operands tier p' n lhs) := by
  induction n generalizing lhs with
  | zero => exact .pure _
  | succ n ih =>
    refine .after (look_onwards _) fun found => ?_
    cases found with
    | none => exact .pure _
    | some op =>
      exact .after next_onwards fun _ => .bind (exprOr_agreeing h _) fun _ =>
        .after (look_onwards _) fun _ => ih _

theorem leftAssoc_startAt {p p' : Parser Expr} (h : Agreeing w p p') (tier : List BinaryOp)
    {s : Stream} (light : s.weight < w) :
    AgreeAt (leftAssoc tier p) (leftAssoc tier p') s ∧
      (MovesAt p s → MovesAt (leftAssoc tier p) s) :=
  bind_startAt light ⟨h s light, id⟩ fun lhs => .after (look_onwards _) fun n =>
    operands_agreeing h tier n lhs

theorem power_startAt (h : g.Accords w g') (structs : Bool) {s : Stream}
    (light : s.weight < w + 1) :
    AgreeAt (power g structs) (power g' structs) s ∧ (Begins s → MovesAt (power g structs) s) :=
  bind_startAt light (postfixed_startAt h structs light) fun _ => accept_agreeing
    (fun _ => .bind (exprOr_agreeing (h.unary structs) _) fun _ =>
      .after (look_onwards _) fun _ => .pure _) (.pure _)

theorem unaryRule_startAt (h : g.Accords w g') (structs : Bool) {s : Stream}
    (light : s.weight < w + 1) :
    AgreeAt (unaryRule g structs) (unaryRule g' structs) s ∧
      (Starts s ∧ s.atToken .dotDot = false → MovesAt (unaryRule g structs) s) := by
  unfold unaryRule AgreeAt MovesAt
  rw [look_bind, look_bind]
  cases prefixed : derivative? s with
  | some found =>
    obtain ⟨n, ns, rest⟩ := List.exists_cons_of_ne_nil (l := s.rest) fun none => by
      simp [derivative?, none] at prefixed
    refine (next_startAt light rest (.after next_onwards fun _ => .after next_onwards fun _ =>
      .after (identOf_onwards _ _) fun _ => ?_)).imp_right fun moves _ => moves
    exact .bind (exprOr_agreeing (h.unary structs) _) fun _ => (spanFrom_onwards _ _).agreeing
  | none =>
    dsimp only
    rw [look_bind, look_bind]
    cases kind : s.kind?.bind UnaryOp.ofToken? with
    | none =>
      exact (power_startAt h structs light).imp_right fun moves start =>
        moves ⟨start.1, start.2, kind⟩
    | some op =>
      obtain ⟨n, ns, rest⟩ := List.exists_cons_of_ne_nil (l := s.rest) fun none => by
        simp [Stream.kind?, none] at kind
      refine (next_startAt light rest ?_).imp_right fun moves _ => moves
      exact .after (look_onwards _) fun _ => .bind (exprOr_agreeing (h.unary structs) _) fun _ =>
        .pure _

theorem operation_startAt (h : g.Accords w g') (structs : Bool) {s : Stream}
    (light : s.weight < w + 1) :
    AgreeAt (operation g structs) (operation g' structs) s ∧
      (Starts s ∧ s.atToken .dotDot = false → MovesAt (operation g structs) s) := by
  unfold operation
  induction tiers generalizing s with
  | nil => exact unaryRule_startAt h structs light
  | cons tier tiers ih =>
    exact (leftAssoc_startAt (fun s light => (ih light).1) tier light).imp_right
      fun moves start => moves ((ih light).2 start)

theorem rangeFrom_startAt (h : g.Accords w g') (structs : Bool) (start : Option Expr) {s : Stream}
    (light : s.weight < w + 1) :
    AgreeAt (rangeFrom g structs start) (rangeFrom g' structs start) s ∧
      (s.atToken .dotDot = true → MovesAt (rangeFrom g structs start) s) := by
  refine accept_startAt light (fun dots => .after (look_onwards _) fun more => ?_)
    ((look_onwards _).bind fun _ => .pure _).agreeing
  have operation : Agreeing w (operation g structs) (operation g' structs) :=
    fun s light => (operation_startAt h structs (by omega)).1
  dsimp only
  split
  · exact .bind (.map operation _) fun _ => (spanFrom_onwards _ _).agreeing
  · exact (spanFrom_onwards _ _).agreeing

/-- Where an expression starts, a node is read. -/
theorem exprRule_startAt (h : g.Accords w g') (structs : Bool) {s : Stream}
    (light : s.weight < w + 1) :
    AgreeAt (exprRule g structs) (exprRule g' structs) s ∧
      (Starts s → MovesAt (exprRule g structs) s) := by
  refine look_startAt ?_
  by_cases dots : s.atToken .dotDot = true
  · rw [if_pos dots, if_pos dots]
    exact (rangeFrom_startAt h structs .none light).imp_right fun moves _ => moves dots
  · rw [if_neg dots, if_neg dots]
    have first := (operation_startAt h structs light).imp_right fun moves (start : Starts s) =>
      moves ⟨start, by simpa using dots⟩
    refine bind_startAt light first fun lhs => .after (look_onwards _) fun dots => ?_
    split
    · exact fun s light => (rangeFrom_startAt h structs (some lhs) light).1
    · exact .pure _

/-! ## Statements -/

theorem annotated_agreeing (h : g.Accords w g') (code : IssueCode) :
    Agreeing w (annotated g code) (annotated g' code) := by
  refine .after (accept_onwards _) fun found => ?_
  cases found with
  | some _ => exact .bind (h.type code) fun _ => .pure _
  | none => exact .pure _

theorem letStmt_starting (h : g.Accords w g') : Starting w (letStmt g) (letStmt g') :=
  .bind next_starting fun _ => .bind (h.pat _) fun _ => .bind (annotated_agreeing h _) fun _ =>
    .after (expect_onwards _ _) fun _ => .bind (h.exprOr true _) fun _ =>
      .after (expect_onwards _ _) fun _ => .pure _

theorem assertion_starting (h : g.Accords w g') : Starting w (assertion g) (assertion g') :=
  .bind next_starting fun _ => .bind (h.exprOr true _) fun _ =>
    .after (expect_onwards _ _) fun _ => .pure _

theorem jump_starting (kind : Option Ident → StmtKind) :
    Starting w (jump kind) (jump kind) :=
  .bind next_starting fun _ => optionalName_agreeing fun _ =>
    .after (expect_onwards _ _) fun _ => .pure _

theorem exprStmt_agreeing (h : g.Accords w g') (target : Expr) :
    Agreeing w (exprStmt g target) (exprStmt g' target) := by
  refine .after (look_onwards _) fun found => ?_
  cases found with
  | some op =>
    exact .after next_onwards fun _ => .bind (h.exprOr true _) fun _ =>
      .after (expect_onwards _ _) fun _ => .pure _
  | none =>
    refine .after (accept_onwards _) fun found => ?_
    cases found with
    | some _ => exact .pure _
    | none =>
      refine .after (look_onwards _) fun done => ?_
      dsimp only
      split
      · exact .pure _
      split
      · exact .after (missing_onwards _) fun _ => .pure _
      · exact .pure _

/-- A statement reads a node, if its expression does. -/
theorem statement_startAt (h : g.Accords w g') {s : Stream} (light : s.weight < w) :
    AgreeAt (statement g) (statement g') s ∧
      (s.rest ≠ [] ∧ (atExpr s = true → MovesAt (g.expr true) s) → MovesAt (statement g) s) := by
  have always {p p' : Parser (StmtKind ⊕ Expr)} {P : Prop} (both : Starting w p p') :
      AgreeAt p p' s ∧ (s.rest ≠ [] ∧ P → MovesAt p s) :=
    ⟨both.agreeing s light, fun some_ => both.moves s light some_.1⟩
  refine look_startAt ?_
  split
  · exact always (.bind next_starting fun _ => .pure _)
  · exact always (.map (letStmt_starting h) _)
  · exact always (.map (assertion_starting h) _)
  · exact always (.map (jump_starting _) _)
  · exact always (.map (jump_starting _) _)
  · refine look_startAt ?_
    by_cases start : atExpr s = true
    · rw [if_pos start, if_pos start]
      exact bind_startAt light ⟨h.expr true s light, fun moves => moves.2 start⟩ fun e =>
        exprStmt_agreeing h e
    · rw [if_neg start, if_neg start]
      exact always (.look fun _ => .bind next_starting fun _ => .after (raise_onwards _ _) fun _ =>
        .pure _)

theorem statements_agreeing (h : g.Accords w g') (n : Nat) :
    Agreeing w (statements g n) (statements g' n) := by
  induction n with
  | zero => exact .pure _
  | succ n ih =>
    refine .after (look_onwards _) fun done => ?_
    split
    · exact .pure _
    refine .after (look_onwards _) fun _ =>
      .bind (fun s light => (statement_startAt h light).1) fun found => ?_
    cases found with
    | inr tail => exact .pure _
    | inl kind => exact .after (look_onwards _) fun _ => .bind ih fun _ => .pure _

theorem blockRule_agreeing (h : g.Accords w g') {group : Group} (light : group.weight < w)
    (v : Nat) : Agreeing v (blockRule g group) (blockRule g' group) :=
  .bind (inside_agreeing light (statements_agreeing h _)) fun _ => .pure _

theorem none_accords (w : Nat) : Grammar.none.Accords w Grammar.none where
  expr _ := (missingExpr_onwards _).agreeing
  unary _ := (missingExpr_onwards _).agreeing
  ifExpr s _ _ := ⟨missingExpr_onwards _ s, rfl⟩
  block _ _ _ := ((missing_onwards _).bind fun _ => .pure _).agreeing
  type _ := ((missing_onwards _).bind fun _ => .pure _).agreeing
  pat _ := ((missing_onwards _).bind fun _ => .pure _).agreeing

theorem accords_zero (g g' : Grammar) : g.Accords 0 g' where
  expr _ _ light := absurd light (Nat.not_lt_zero _)
  unary _ _ light := absurd light (Nat.not_lt_zero _)
  ifExpr _ light := absurd light (Nat.not_lt_zero _)
  block _ light := absurd light (Nat.not_lt_zero _)
  type _ _ light := absurd light (Nat.not_lt_zero _)
  pat _ _ light := absurd light (Nat.not_lt_zero _)

/-- Where fewer tokens are left than rules may nest, rules that may nest deeper do the same. -/
theorem ofDepth_accords {n k w : Nat} (enough : w ≤ n ∨ k = 0) :
    (ofDepth n).Accords w (ofDepth (n + k)) := by
  induction n generalizing w with
  | zero =>
    rcases enough with none | rfl
    · rw [Nat.le_zero.mp none]
      exact accords_zero _ _
    · exact none_accords w
  | succ n ih =>
    cases w with
    | zero => exact accords_zero _ _
    | succ w =>
      have h := ih (w := w) (by omega)
      rw [Nat.add_right_comm]
      exact ⟨fun structs s light => (exprRule_startAt h structs light).1,
        fun structs s light => (unaryRule_startAt h structs light).1,
        fun s light found => (ifRule_startAt h light found).1,
        fun group light => blockRule_agreeing h (by omega),
        fun code s light => (typeRule_startAt h code light).1, patRule_agreeing h⟩

/-! ## Items -/

theorem useItem_starting : Starting w useItem useItem := by
  refine .bind next_starting fun _ => .after (accept_onwards _) fun found => ?_
  cases found with
  | some _ => exact .after (.pure _) fun _ => .after (expect_onwards _ _) fun _ => .pure _
  | none =>
    exact .after (missing_onwards _) fun _ => .after (.pure _) fun _ =>
      .after (expect_onwards _ _) fun _ => .pure _

theorem typedName_agreeing (h : g.Accords w g') (nameCode typeCode : IssueCode) :
    Agreeing w (typedName g nameCode typeCode) (typedName g' nameCode typeCode) :=
  .after (ident_onwards _) fun _ => .after (expect_onwards _ _) fun _ => .bind (h.type _) fun _ =>
    .pure _

theorem fnName_onwards : Onwards fnName := by
  refine (look_onwards _).bind fun kind => ?_
  split
  · exact next_onwards.bind fun _ => (look_onwards _).bind fun _ => .pure _
  · exact (ident_onwards _).bind fun _ => .pure _

/-- Items between brackets that may stand here, and what follows them. -/
theorem listed_agreeing {α β : Type} {opener : TokenKind} {item item' : Parser α}
    (h : Agreeing w item item') {empty : Option IssueCode} {rest : Bool} {none : Parser (List α)}
    (stays : Onwards none) {q q' : List α → Parser β}
    (then_ : ∀ as, Agreeing w (q as) (q' as)) :
    Agreeing w
      (do
        let as ← match ← acceptGroup opener with
          | some group => Prod.fst <$> commaList group empty rest item
          | .none => none
        q as)
      (do
        let as ← match ← acceptGroup opener with
          | some group => Prod.fst <$> commaList group empty rest item'
          | .none => none
        q' as) :=
  acceptGroup_within
    (fun _ light => .bind (.map (commaList_agreeing (by omega) h _ _) _) then_)
    (.after stays then_)

theorem fnItem_starting (h : g.Accords w g') : Starting w (fnItem g) (fnItem g') := by
  refine .bind next_starting fun _ => .after fnName_onwards fun name => ?_
  refine listed_agreeing (ident_onwards _).agreeing (.pure _) fun generics => ?_
  refine listed_agreeing (typedName_agreeing h _ _) ((missing_onwards _).bind fun _ => .pure _)
    fun params => .after (accept_onwards _) fun found => ?_
  have body := (blockOr_agreeing h .expectedFnBody).mono (Nat.le_succ w)
  cases found with
  | some _ => exact .bind (.map (h.type _) _) fun _ => .bind body fun _ => .pure _
  | none => exact .after (.pure _) fun _ => .bind body fun _ => .pure _

theorem structVariant_agreeing (h : g.Accords w g') :
    Agreeing w (structVariant g) (structVariant g') :=
  .after (ident_onwards _) fun _ => listed_agreeing (typedName_agreeing h _ _)
    ((missing_onwards _).bind fun _ => .pure _) fun _ => (spanFrom_onwards _ _).agreeing

theorem structVariants_agreeing (h : g.Accords w g') (n : Nat) :
    Agreeing w (structVariants g n) (structVariants g' n) := by
  induction n with
  | zero => exact .pure _
  | succ n ih =>
    refine .bind (structVariant_agreeing h) fun variant => .after (accept_onwards _) fun found => ?_
    cases found with
    | none => exact .pure _
    | some _ =>
      refine .after (look_onwards _) fun named => ?_
      split
      · exact .bind ih fun _ => .pure _
      · exact .after (missing_onwards _) fun _ => .pure _

theorem structItem_starting (h : g.Accords w g') :
    Starting w (structItem g) (structItem g') :=
  .bind next_starting fun _ => .after (look_onwards _) fun _ =>
    .bind (structVariants_agreeing h _) fun _ => .after (accept_onwards _) fun _ => .pure _

theorem constItem_starting (h : g.Accords w g') : Starting w (constItem g) (constItem g') :=
  .bind next_starting fun _ => .after (ident_onwards _) fun _ => .bind (annotated_agreeing h _)
    fun _ => .after (expect_onwards _ _) fun _ => .bind (h.exprOr true _) fun _ =>
      .after (expect_onwards _ _) fun _ => .pure _

theorem paramName_onwards : Onwards paramName := by
  refine (acceptAny_onwards _).bind fun found => ?_
  cases found with
  | some t =>
    dsimp only
    split
    · exact identOf_onwards t 1
    · exact (raise_onwards _ _).bind fun _ => identOf_onwards t 0
  | none => exact (missing_onwards _).bind fun _ => .pure _

theorem paramItem_starting (h : g.Accords w g') : Starting w (paramItem g) (paramItem g') :=
  .bind next_starting fun _ => .after paramName_onwards fun _ =>
    .after (expect_onwards _ _) fun _ => .bind (h.type _) fun _ =>
      .after (expect_onwards _ _) fun _ => .pure _

theorem item_starting (h : g.Accords w g') : Starting w (item g) (item g') := by
  refine .look fun kind => ?_
  split
  · exact useItem_starting
  · exact .map (fnItem_starting h) _
  · exact .map (structItem_starting h) _
  · exact .map (structItem_starting h) _
  · exact constItem_starting h
  · exact paramItem_starting h
  · exact .map (assertion_starting h) _
  · exact .look fun _ => .bind next_starting fun _ => .after (raise_onwards _ _) fun _ =>
      .after (skipUntil_onwards _) fun _ => .pure _

theorem scriptItems_agreeing (h : g.Accords w g') (n : Nat) :
    Agreeing w (scriptItems g n) (scriptItems g' n) := by
  induction n with
  | zero => exact .pure _
  | succ n ih =>
    refine .after (look_onwards _) fun done => ?_
    split
    · exact .pure _
    · exact .after (look_onwards _) fun _ => .bind (item_starting h).agreeing fun _ =>
        .after (look_onwards _) fun _ => .bind ih fun _ => .pure _

end Grammar

/-- A script is read as rules of any greater depth would read it. -/
theorem Expr.parser_agreeing {n k : Nat} :
    Agreeing n (Expr.parser (Grammar.ofDepth n)) (Expr.parser (Grammar.ofDepth (n + k))) :=
  .bind ((Grammar.ofDepth_accords (.inl (Nat.le_refl n))).exprOr true _) fun _ =>
    .after Parser.finish_onwards fun _ => .pure _

theorem Script.parser_agreeing {n k : Nat} :
    Agreeing n (Script.parser (Grammar.ofDepth n)) (Script.parser (Grammar.ofDepth (n + k))) :=
  .after (Parser.look_onwards _) fun m =>
    .bind (Grammar.scriptItems_agreeing (Grammar.ofDepth_accords (.inl (Nat.le_refl n))) m) fun _ =>
      .pure _

end Ember
