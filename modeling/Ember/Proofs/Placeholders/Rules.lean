import Ember.Proofs.Placeholders

/-!
# The account and the reading of every rule of the grammar

Each rule pays for its own gaps, and takes over those of the expression that it is given to build
on. A rule reads a node or reports something; a block is given its group, which was read before. The
rules of depth `n + 1` do this if those of depth `n` do.
-/

set_option autoImplicit false

namespace Ember

variable {α : Type}

structure Grammar.Reading (g : Grammar) : Prop where
  expr : ∀ structs, Reads 0 1 (g.expr structs) Expr.gaps
  unary : ∀ structs, Reads 0 1 (g.unary structs) Expr.gaps
  ifExpr : Reads 0 1 g.ifExpr Expr.gaps
  block : ∀ group, Reads 0 0 (g.block group) Block.gaps
  type : ∀ code, Reads 0 1 (g.type code) TypeExpr.gaps
  pat : ∀ code, Reads 0 1 (g.pat code) fun _ => 0

namespace Grammar

open Ember.Parser

variable {g : Grammar}

/-- An expression that is missing. -/
theorem missingExpr_reads (code : IssueCode) :
    Reads 0 1 (do return Expr.missing (← missing code)) Expr.gaps :=
  .lead (missing_reads 1 code) fun _ => .pure (Nat.le_refl _)

theorem exprOr_reads {p : Parser Expr} (h : Reads 0 1 p Expr.gaps) (code : IssueCode) :
    Reads 0 1 (exprOr p code) Expr.gaps := by
  refine .skip (look_reads _) fun found => ?_
  split
  · exact h
  · exact missingExpr_reads code

/-- An expression in the middle of something. -/
theorem Reading.exprOr (reading : g.Reading) (structs : Bool) (code : IssueCode) :
    Reads 0 1 (Grammar.exprOr (g.expr structs) code) Expr.gaps :=
  exprOr_reads (reading.expr structs) code

/-! ## Types -/

theorem arrayType_drains (reading : g.Reading) (n : Nat) :
    Drains n 0 (arrayType g) fun p => p.1.gaps + p.2.gaps := by
  refine .bind (reading.type _) fun of => .skip (accept_accepts _).reads fun found => ?_
  have rest (m : Nat) (len : Expr) : Drains m (of.gaps + len.gaps) (do finish; return (of, len))
      fun p => p.1.gaps + p.2.gaps :=
    .after ((finish_drains m).more _) fun _ => .pure (Nat.le_refl _)
  cases found with
  | some _ => exact .also (reading.exprOr true _) fun len => rest _ len
  | none =>
    refine .also (missing_reads 0 _) fun here => ?_
    rw [pure_bind]
    exact rest _ (Expr.missing here)

theorem typeArgs_reads (reading : g.Reading) (group : Group) :
    Reads 0 0 (typeArgs g group) TypeExpr.gapsOfList :=
  .map (commaList_reads (reading.type _) group _ false) fun _ =>
    Nat.le_of_eq (TypeExpr.gapsOfList_eq _)

theorem typeAtom_reads (reading : g.Reading) : Reads 0 1 (typeAtom g) TypeExpr.gaps := by
  apply (acceptGroup_accepts _).bind
  · intro group
    exact .bind (inside_reads (arrayType_drains reading _)) fun _ => .pure (Nat.le_refl _)
  · refine .first (ident_reads _) fun name => ?_
    have rest (args : List TypeExpr) : Reads (TypeExpr.gapsOfList args) 0 (do
        return ⟨.named name args, ← look (·.spanFrom name.span)⟩) TypeExpr.gaps :=
      .skip (look_reads _) fun _ => .pure (Nat.le_refl _)
    apply (acceptGroup_accepts _).bind
    · exact fun group => .bind (typeArgs_reads reading group) rest
    · dsimp only
      rw [pure_bind]
      exact rest []

theorem typeAtomOr_reads (reading : g.Reading) (code : IssueCode) :
    Reads 0 1 (typeAtomOr g code) TypeExpr.gaps := by
  refine .skip (look_reads _) fun found => ?_
  split
  · exact typeAtom_reads reading
  · exact .lead (missing_reads 1 code) fun _ => .pure (Nat.le_refl _)

theorem alternatives_reads (reading : g.Reading) (n : Nat) :
    Reads 0 0 (alternatives g n) TypeExpr.gapsOfList := by
  induction n with
  | zero =>
    rw [alternatives]
    exact .pure (Nat.le_refl _)
  | succ n ih =>
    rw [alternatives]
    apply (accept_accepts _).bind
    · exact fun _ => .bind (typeAtomOr_reads reading _) fun t => .also ih fun _ =>
        .pure (Nat.le_refl _)
    · exact .pure (Nat.le_refl _)

theorem typeRule_reads (reading : g.Reading) (code : IssueCode) :
    Reads 0 1 (typeRule g code) TypeExpr.gaps := by
  refine .skip (look_reads _) fun found => ?_
  split
  · refine .lead (typeAtom_reads reading) fun first => .skip (look_reads _) fun n => ?_
    refine .also (alternatives_reads reading n) fun others => ?_
    cases others with
    | nil => exact .pure (Nat.le_refl _)
    | cons t ts => exact .skip (look_reads _) fun _ => .pure (Nat.le_refl _)
  · exact .lead (missing_reads 1 code) fun _ => .pure (Nat.le_refl _)

/-! ## Patterns -/

theorem literal_reads (t : Token) (negate : Bool) : Reads 0 0 (literal t negate) fun _ => 0 := by
  unfold literal
  split
  · exact .pure (Nat.le_refl _)
  · exact .skip (raise_free 0 _ _) fun _ => .pure (Nat.le_refl _)

theorem fieldPat_reads (reading : g.Reading) : Reads 0 1 (fieldPat g) fun _ => 0 := by
  refine .first (ident_reads _) fun field => ?_
  apply (accept_accepts _).bind
  · exact fun _ => .skip (reading.pat _) fun _ => .pure (Nat.le_refl _)
  · exact .pure (Nat.le_refl _)

theorem namedPat_reads (reading : g.Reading) (t : Token) :
    Reads 0 0 (namedPat g t) fun _ => 0 := by
  refine .skip (identOf_reads _ _) fun name => ?_
  apply (acceptGroup_accepts _).bind
  · exact fun group => .skip (commaList_free (fieldPat_reads reading) group _ true) fun _ =>
      .skip (look_reads _) fun _ => .pure (Nat.le_refl _)
  · exact .pure (Nat.le_refl _)

theorem negativePat_reads (t : Token) : Reads 0 0 (negativePat t) fun _ => 0 := by
  apply (acceptAny_accepts _).bind
  · exact fun _ => .skip (literal_reads _ _) fun _ => .skip (look_reads _) fun _ =>
      .pure (Nat.le_refl _)
  · exact .skip (missing_free 0 _) fun _ => .pure (Nat.le_refl _)

theorem patAtom_reads (reading : g.Reading) : Reads 0 1 (patAtom g) fun _ => 0 := by
  refine .skip (look_reads _) fun here => ?_
  apply (acceptGroup_accepts _).bind
  · exact fun group => .skip (commaList_free (reading.pat _) group _ true) fun _ =>
      .pure (Nat.le_refl _)
  · apply next_accepts.bind
    · intro node
      split
      · split
        · exact .pure (Nat.le_refl _)
        · exact .skip (ident_reads _) fun _ => .skip (look_reads _) fun _ => .pure (Nat.le_refl _)
        · exact namedPat_reads reading _
        · exact negativePat_reads _
        · exact .skip (literal_reads _ _) fun _ => .pure (Nat.le_refl _)
      · exact .skip (raise_free 0 _ _) fun _ => .pure (Nat.le_refl _)
    · exact .first (raise_free 1 _ _) fun _ => .pure (Nat.le_refl _)

theorem patRule_reads (reading : g.Reading) (code : IssueCode) :
    Reads 0 1 (patRule g code) fun _ => 0 := by
  refine .skip (look_reads _) fun found => ?_
  split
  · exact patAtom_reads reading
  · exact .first (missing_free 1 code) fun _ => .pure (Nat.le_refl _)

/-! ## Expressions without operators -/

theorem callArgs_reads (reading : g.Reading) (group : Group) :
    Reads 0 0 (callArgs g group) Expr.gapsOfList :=
  .map (commaList_reads (reading.exprOr true _) group _ false) fun _ =>
    Nat.le_of_eq (Expr.gapsOfList_eq _)

theorem enclosed_reads (reading : g.Reading) (group : Group) (code : IssueCode) :
    Reads 0 0 (enclosed g group code) Expr.gaps := by
  refine inside_reads (.bind (reading.exprOr true code) fun e => ?_)
  exact .after ((finish_drains _).more _) fun _ => .pure (Nat.le_refl _)

theorem groupExpr_reads (reading : g.Reading) (group : Group) :
    Reads 0 0 (groupExpr g group) Expr.gaps := by
  unfold groupExpr
  split
  · exact .bind (enclosed_reads reading group _) fun e =>
      .pure (Nat.le_of_eq (Expr.gaps_moved e _))
  · exact .bind (callArgs_reads reading group) fun _ => .pure (Nat.le_refl _)
  · exact .bind (reading.block group) fun _ => .pure (Nat.le_refl _)
  · exact .bind (raise_reads 0 _ _) fun _ => .pure (Nat.le_refl _)

theorem fieldInit_reads (reading : g.Reading) :
    Reads 0 1 (fieldInit g) fun i => i.value.gaps := by
  refine .first (ident_reads _) fun name => ?_
  apply (accept_accepts _).bind
  · exact fun _ => .bind (reading.exprOr true _) fun _ => .pure (Nat.le_refl _)
  · exact .pure (Nat.le_refl _)

theorem structLit_reads (reading : g.Reading) (structs : Bool) (head : StructHead) (start : Span)
    {plain : ExprKind} (h : plain.gaps = 0) :
    Reads 0 0 (structLit g structs head start plain) Expr.gaps := by
  have alone : Reads 0 0 (pure ⟨plain, start⟩) Expr.gaps := .pure (Nat.le_of_eq h)
  unfold structLit
  split
  · apply (acceptGroup_accepts _).bind
    · exact fun group => .bind (commaList_reads (fieldInit_reads reading) group _ false) fun r =>
        .skip (look_reads _) fun _ => .pure (Nat.le_of_eq (FieldInit.gapsOfList_eq r.1))
    · exact alone
  · exact alone

theorem blockOr_reads (reading : g.Reading) (code : IssueCode) :
    Reads 0 1 (blockOr g code) Block.gaps := by
  apply (acceptGroup_accepts _).bind
  · exact fun group => reading.block group
  · exact .first (missing_free 1 code) fun _ => .pure (Nat.le_refl _)

theorem elseBranch_reads (reading : g.Reading) :
    Reads 0 0 (elseBranch g) Expr.gapsOfOption := by
  apply (accept_accepts _).bind
  · intro _
    refine .skip (look_reads _) fun again => ?_
    split
    · exact .bind reading.ifExpr fun _ => .pure (Nat.le_refl _)
    · apply (acceptGroup_accepts _).bind
      · exact fun group => .bind (reading.block group) fun _ => .pure (Nat.le_refl _)
      · exact .skip (missing_free 0 _) fun _ => .pure (Nat.le_refl _)
  · exact .pure (Nat.le_refl _)

theorem ifRule_reads (reading : g.Reading) : Reads 0 1 (ifRule g) Expr.gaps := by
  refine .first (expect_reads _ _) fun start => .bind (reading.exprOr false _) fun cond => ?_
  refine .also (blockOr_reads reading _) fun yes => .also (elseBranch_reads reading) fun no => ?_
  exact .skip (look_reads _) fun _ => .pure (Nat.le_refl _)

theorem matchArm_reads (reading : g.Reading) : Reads 0 1 (matchArm g) fun a => a.body.gaps := by
  refine .first (reading.pat _) fun pat => .skip (expect_reads _ _) fun _ => ?_
  exact .bind (reading.exprOr true _) fun _ => .pure (Nat.le_refl _)

theorem matchExpr_reads (reading : g.Reading) : Reads 0 1 (matchExpr g) Expr.gaps := by
  refine .first (expect_reads _ _) fun start => .bind (reading.exprOr false _) fun subject => ?_
  have rest (arms : List MatchArm) : Reads (subject.gaps + (arms.map (·.body.gaps)).sum) 0 (do
      return ⟨.matchArms subject arms, ← look (·.spanFrom start.span)⟩) Expr.gaps :=
    .skip (look_reads _) fun _ =>
      .pure (Nat.le_of_eq (congrArg (subject.gaps + ·) (MatchArm.gapsOfList_eq arms)))
  apply (acceptGroup_accepts _).bind
  · intro group
    have arms := commaList_reads (matchArm_reads reading) group (some .emptyMatch) false
    exact .also (.map arms fun _ => Nat.le_refl _) rest
  · refine .skip (missing_free 0 _) fun _ => ?_
    rw [pure_bind]
    exact rest []

/-- A name after a sign, if there is one. -/
theorem optionalName_reads (kind : TokenKind) (sign : Nat) {debt k : Nat} {w : α → Nat}
    {rest : Option Ident → Parser α} (h : ∀ name, Reads debt k (rest name) w) :
    Reads debt k (do
      let name ← match ← accept kind with
        | some t => some <$> identOf t sign
        | .none => pure .none
      rest name) w := by
  refine .skip (accept_accepts _).reads fun found => ?_
  cases found with
  | some t => exact .skip (.map (identOf_reads t sign) fun _ => Nat.le_refl _) h
  | none =>
    dsimp only
    rw [pure_bind]
    exact h .none

theorem forExpr_reads (reading : g.Reading) : Reads 0 1 (forExpr g) Expr.gaps := by
  refine .skip (look_reads _) fun start => optionalName_reads _ _ fun label => ?_
  apply (accept_accepts _).bind
  · intro _
    refine .skip (reading.pat _) fun pat => .skip (expect_reads _ _) fun _ => ?_
    refine .bind (reading.exprOr false _) fun iter => .also (blockOr_reads reading _) fun body => ?_
    exact .skip (look_reads _) fun _ => .pure (Nat.le_refl _)
  · refine .lead (missing_reads 1 _) fun _ => ?_
    exact .skip (look_reads _) fun _ => .pure (Nat.le_refl _)

theorem sourceParts_drains (reading : g.Reading) (n : Nat) :
    Drains n 0 (sourceParts g n) SourcePart.gapsOfList := by
  induction n with
  | zero =>
    rw [sourceParts]
    exact .nothing (Nat.le_refl _)
  | succ n ih =>
    rw [sourceParts]
    apply next_drains
    · intro node
      cases node with
      | token t =>
        dsimp only
        split
        · exact .after ih fun _ => .pure (Nat.le_refl _)
        · exact .skip (raise_free 0 _ _) fun _ => ih
      | group group =>
        dsimp only
        split
        · exact .bind (enclosed_reads reading group _) fun e => .after (ih.more _) fun _ =>
            .pure (Nat.le_refl _)
        · exact .skip (raise_free 0 _ _) fun _ => ih
    · exact .pure (Nat.le_refl _)

theorem sourceExpr_reads (reading : g.Reading) : Reads 0 1 (sourceExpr g) Expr.gaps := by
  refine .first (expect_reads _ _) fun start => optionalName_reads _ _ fun target => ?_
  have rest (parts : List SourcePart) : Reads (SourcePart.gapsOfList parts) 0 (do
      return ⟨.source ⟨target, parts⟩, ← look (·.spanFrom start.span)⟩) Expr.gaps :=
    .skip (look_reads _) fun _ => .pure (Nat.le_refl _)
  apply (acceptGroup_accepts _).bind
  · exact fun group => .bind (inside_reads (sourceParts_drains reading _)) rest
  · refine .skip (missing_free 0 _) fun _ => ?_
    rw [pure_bind]
    exact rest []

theorem signedName_readsAt {s : Stream} (some_ : s.rest ≠ []) (t : Token)
    {kind : String → ExprKind} (h : ∀ name, (kind name).gaps = 0) :
    ReadsAt s 0 1 (signedName t kind) Expr.gaps := by
  refine (next_readsAt some_).first ?_
  exact .skip (identOf_reads _ _) fun name => .pure (Nat.le_of_eq (h name.name))

/-- An expression that begins with the token that comes next. -/
theorem tokenExpr_readsAt {s : Stream} (some_ : s.rest ≠ []) (reading : g.Reading)
    (structs : Bool) (t : Token) : ReadsAt s 0 1 (tokenExpr g structs t) Expr.gaps := by
  have then_ {f : Option Node → Parser Expr} (h : ∀ n, Reads 0 0 (f n) Expr.gaps) :
      ReadsAt s 0 1 (next >>= f) Expr.gaps := (next_readsAt some_).first (h _)
  unfold tokenExpr
  split
  · exact then_ fun _ => .skip (identOf_reads _ _) fun _ => structLit_reads reading _ _ _ rfl
  · exact then_ fun _ => .skip (identOf_reads _ _) fun _ => structLit_reads reading _ _ _ rfl
  · exact signedName_readsAt some_ t fun _ => rfl
  · exact signedName_readsAt some_ t fun _ => rfl
  · exact ifRule_reads reading s
  · exact matchExpr_reads reading s
  · exact forExpr_reads reading s
  · exact forExpr_reads reading s
  · exact sourceExpr_reads reading s
  · split_ifs
    · exact then_ fun _ => .skip (literal_reads _ _) fun _ => .pure (Nat.le_refl _)
    · exact then_ fun _ => .bind (raise_reads 0 _ _) fun _ => .pure (Nat.le_refl _)
    · exact then_ fun _ => .skip (raise_free 0 _ _) fun _ =>
        .skip (identOf_reads _ _) fun _ => .pure (Nat.le_refl _)
    · exact missingExpr_reads _ s

theorem primary_reads (reading : g.Reading) (structs : Bool) :
    Reads 0 1 (primary g structs) Expr.gaps := by
  intro s
  apply look_readsAt
  cases rest : s.rest with
  | nil =>
    simp only [Stream.peek?, rest, List.head?_nil]
    exact missingExpr_reads _ s
  | cons n ns =>
    have some_ : s.rest ≠ [] := by simp [rest]
    simp only [Stream.peek?, rest, List.head?_cons]
    cases n with
    | token t => exact tokenExpr_readsAt some_ reading structs t
    | group group => exact (next_readsAt some_).first (groupExpr_reads reading group)

theorem member_reads (reading : g.Reading) (base : Expr) :
    Reads base.gaps 1 (member g base) Expr.gaps := by
  refine .first (ident_reads _) fun field => ?_
  have rest (kind : ExprKind) : Reads kind.gaps 0
      (do return ⟨kind, ← look (·.spanFrom base.span)⟩) Expr.gaps :=
    .skip (look_reads _) fun _ => .pure (Nat.le_refl _)
  apply (acceptGroup_accepts _).bind
  · exact fun group => .bind (.map ((callArgs_reads reading group).more base.gaps) fun _ =>
      Nat.le_refl _) rest
  · dsimp only
    rw [pure_bind]
    exact rest (.field base field)

theorem typedCall_reads (reading : g.Reading) (base : Expr) (angle : Group) :
    Reads base.gaps 0 (typedCall g base angle) Expr.gaps := by
  refine .also (typeArgs_reads reading angle) fun types => ?_
  have rest (args : List Expr) : Reads (base.gaps + TypeExpr.gapsOfList types +
      Expr.gapsOfList args) 0
      (do return ⟨.call base types args, ← look (·.spanFrom base.span)⟩) Expr.gaps :=
    .skip (look_reads _) fun _ => .pure (Nat.le_refl _)
  apply (acceptGroup_accepts _).bind
  · exact fun group => .also (callArgs_reads reading group) rest
  · refine .skip (missing_free 0 _) fun _ => ?_
    rw [pure_bind]
    exact rest []

/-- What follows an expression is built on it, or leaves it as it is. -/
theorem postfixStep_reads (reading : g.Reading) (base : Expr) :
    Reads base.gaps 0 (postfixStep g base) fun o => (o.getD base).gaps := by
  apply (acceptGroup_accepts _).bind
  · exact fun group => .also (callArgs_reads reading group) fun _ => .pure (Nat.le_refl _)
  apply (acceptGroup_accepts _).bind
  · exact fun angle => .bind (typedCall_reads reading base angle) fun _ => .pure (Nat.le_refl _)
  apply (accept_accepts _).bind
  · exact fun _ => .bind (member_reads reading base) fun _ => .pure (Nat.le_refl _)
  apply (acceptGroup_accepts _).bind
  · exact fun group => .also (enclosed_reads reading group _) fun _ => .pure (Nat.le_refl _)
  · exact .pure (Nat.le_refl _)

theorem postfixes_reads (reading : g.Reading) (n : Nat) (base : Expr) :
    Reads base.gaps 0 (postfixes g n base) Expr.gaps := by
  induction n generalizing base with
  | zero =>
    rw [postfixes]
    exact .pure (Nat.le_refl _)
  | succ n ih =>
    rw [postfixes]
    refine .bind (postfixStep_reads reading base) fun found => ?_
    cases found with
    | some e => exact ih e
    | none => exact .pure (Nat.le_refl _)

theorem postfixed_reads (reading : g.Reading) (structs : Bool) :
    Reads 0 1 (postfixed g structs) Expr.gaps := by
  refine .lead (primary_reads reading structs) fun base => ?_
  split
  · exact .pure (Nat.le_refl _)
  · exact .skip (look_reads _) fun n => postfixes_reads reading n base

/-! ## Operators -/

theorem operands_reads {operand : Parser Expr} (h : Reads 0 1 operand Expr.gaps)
    (tier : List BinaryOp) (n : Nat) (lhs : Expr) :
    Reads lhs.gaps 0 (operands tier operand n lhs) Expr.gaps := by
  induction n generalizing lhs with
  | zero =>
    rw [operands]
    exact .pure (Nat.le_refl _)
  | succ n ih =>
    rw [operands]
    refine .skip (look_reads _) fun op => ?_
    cases op with
    | none => exact .pure (Nat.le_refl _)
    | some op =>
      refine .skip next_accepts.reads fun _ => .also (exprOr_reads h _) fun rhs => ?_
      exact .skip (look_reads _) fun last => ih ⟨.binary op lhs rhs, _⟩

theorem leftAssoc_reads {operand : Parser Expr} (h : Reads 0 1 operand Expr.gaps)
    (tier : List BinaryOp) : Reads 0 1 (leftAssoc tier operand) Expr.gaps := by
  refine .lead h fun lhs => ?_
  exact .skip (look_reads _) fun n => operands_reads h tier n lhs

theorem power_reads (reading : g.Reading) (structs : Bool) :
    Reads 0 1 (power g structs) Expr.gaps := by
  refine .lead (postfixed_reads reading structs) fun base => ?_
  apply (accept_accepts _).bind
  · intro _
    refine .also (exprOr_reads (reading.unary structs) _) fun exponent => ?_
    exact .skip (look_reads _) fun _ => .pure (Nat.le_refl _)
  · exact .pure (Nat.le_refl _)

theorem unaryRule_reads (reading : g.Reading) (structs : Bool) :
    Reads 0 1 (unaryRule g structs) Expr.gaps := by
  have operand (code : IssueCode) : Reads 0 1 (Grammar.exprOr (g.unary structs) code) Expr.gaps :=
    exprOr_reads (reading.unary structs) code
  refine .skip (look_reads _) fun found => ?_
  split
  · refine .skip next_accepts.reads fun _ => .skip next_accepts.reads fun _ => ?_
    refine .skip next_accepts.reads fun _ => .skip (identOf_reads _ _) fun var => ?_
    exact .lead (operand _) fun _ => .skip (look_reads _) fun _ => .pure (Nat.le_refl _)
  · refine .skip (look_reads _) fun op => ?_
    cases op with
    | none => exact power_reads reading structs
    | some op =>
      refine .skip next_accepts.reads fun _ => .skip (look_reads _) fun start => ?_
      exact .lead (operand _) fun _ => .pure (Nat.le_refl _)

theorem operation_reads (reading : g.Reading) (structs : Bool) :
    Reads 0 1 (operation g structs) Expr.gaps := by
  unfold operation
  induction tiers with
  | nil => exact unaryRule_reads reading structs
  | cons tier tiers ih => exact leftAssoc_reads ih tier

/-- A range, where one goes on: its dots are read. Its rule has a placeholder of its own that
nothing reports, for a range that does not go on, so that has to be left out. -/
theorem rangeFrom_readsAt (reading : g.Reading) (structs : Bool) (start : Option Expr) {s : Stream}
    (dots : s.atToken .dotDot = true) : ReadsAt s (Expr.gapsOfOption start) 1
      (rangeFrom g structs start) Expr.gaps := by
  obtain ⟨t, found⟩ := accept_dots dots
  have taken : ReadsAt s (Expr.gapsOfOption start) 1 (accept .dotDot)
      fun _ => Expr.gapsOfOption start := by
    refine ⟨(accept_accepts .dotDot).pays.more _ s, ?_⟩
    rcases accept_accepts .dotDot s with ⟨_, _, reads⟩ | stays
    · exact reads.quiet
    · rw [stays] at found
      cases found
  refine taken.bind (k := 0) ?_
  rw [found]
  have rest (stop : Option Expr) :
      Reads (Expr.gapsOfOption start + Expr.gapsOfOption stop) 0 (do
        return ⟨.range start stop, ← look (·.spanFrom ((start.map Expr.span).getD t.span))⟩)
        Expr.gaps :=
    .skip (look_reads _) fun _ => .pure (Nat.le_refl _)
  refine Reads.skip (look_reads _) (fun more => ?_) _
  dsimp only
  split
  · exact .also (.map (operation_reads reading structs) fun _ => Nat.le_refl _) rest
  · rw [pure_bind]
    exact rest .none

theorem exprRule_reads (reading : g.Reading) (structs : Bool) :
    Reads 0 1 (exprRule g structs) Expr.gaps := by
  intro s
  apply look_readsAt
  split
  · rename_i dots
    exact rangeFrom_readsAt reading structs .none dots
  · refine Reads.lead (operation_reads reading structs) (fun lhs t => ?_) s
    apply look_readsAt
    split
    · rename_i dots
      exact (rangeFrom_readsAt reading structs (some lhs) dots).weaken (Nat.zero_le _)
    · exact Reads.pure (Nat.le_refl _) t

/-! ## Statements -/

theorem annotated_reads (reading : g.Reading) (code : IssueCode) :
    Reads 0 0 (annotated g code) TypeExpr.gapsOfOption := by
  apply (accept_accepts _).bind
  · exact fun _ => .bind (reading.type code) fun _ => .pure (Nat.le_refl _)
  · exact .pure (Nat.le_refl _)

theorem letStmt_reads (reading : g.Reading) : Reads 0 1 (letStmt g) StmtKind.gaps := by
  refine .skip next_accepts.reads fun _ => .first (reading.pat _) fun pat => ?_
  refine .bind (annotated_reads reading _) fun ty => .skip (expect_reads _ _) fun _ => ?_
  refine .also (reading.exprOr true _) fun value => ?_
  exact .skip (expect_reads _ _) fun _ => .pure (Nat.le_refl _)

theorem assertion_reads (reading : g.Reading) : Reads 0 1 (assertion g) Expr.gaps := by
  refine .skip next_accepts.reads fun _ => .lead (reading.exprOr true _) fun cond => ?_
  exact .skip (expect_reads _ _) fun _ => .pure (Nat.le_refl _)

theorem jump_reads {kind : Option Ident → StmtKind} (h : ∀ label, (kind label).gaps = 0) :
    Reads 0 1 (jump kind) StmtKind.gaps := by
  refine .skip next_accepts.reads fun _ => optionalName_reads _ _ fun label => ?_
  exact .first (expect_reads _ _) fun _ => .pure (Nat.le_of_eq (h label))

def partGaps : StmtKind ⊕ Expr → Nat := Sum.elim StmtKind.gaps Expr.gaps

theorem exprStmt_reads (reading : g.Reading) (target : Expr) :
    Reads target.gaps 0 (exprStmt g target) partGaps := by
  refine .skip (look_reads _) fun op => ?_
  cases op with
  | some op =>
    refine .skip next_accepts.reads fun _ => .also (reading.exprOr true _) fun value => ?_
    exact .skip (expect_reads _ _) fun _ => .pure (Nat.le_refl _)
  | none =>
  apply (accept_accepts _).bind
  · exact fun _ => .pure (Nat.le_refl _)
  refine .skip (look_reads _) fun done => ?_
  dsimp only
  split
  · exact .pure (Nat.le_refl _)
  · split
    · exact .skip (missing_free 0 _) fun _ => .pure (Nat.le_refl _)
    · exact .pure (Nat.le_refl _)

theorem statement_reads (reading : g.Reading) : Reads 0 1 (statement g) partGaps := by
  intro s
  have whole {β : Type} {p : Parser β} {f : β → StmtKind ⊕ Expr} {w : β → Nat} (h : Reads 0 1 p w)
      (less : ∀ b, partGaps (f b) ≤ w b) : ReadsAt s 0 1 (f <$> p) partGaps := h.map less s
  apply look_readsAt
  split
  · rename_i semi
    have some_ : s.rest ≠ [] := by
      intro none
      simp [Stream.kind?, none] at semi
    exact (next_readsAt some_).first (.pure (Nat.le_refl _))
  · exact whole (letStmt_reads reading) fun _ => Nat.le_refl _
  · exact whole (assertion_reads reading) fun _ => Nat.le_refl _
  · exact whole (jump_reads fun _ => rfl) fun _ => Nat.le_refl _
  · exact whole (jump_reads fun _ => rfl) fun _ => Nat.le_refl _
  · refine Reads.skip (look_reads _) (fun starts => ?_) s
    split
    · exact .lead (reading.expr true) fun e => exprStmt_reads reading e
    · refine .skip (look_reads _) fun start => .skip next_accepts.reads fun n => ?_
      exact .first (raise_free 1 _ _) fun _ => .pure (Nat.le_refl _)

/-- A statement that gives the value of the block is the last one. -/
def Tails (p : Parser (StmtKind ⊕ Expr)) : Prop :=
  ∀ s e, (p s).1 = .inr e → (p s).2.rest = []

theorem Tails.pure (kind : StmtKind) : Tails (pure (.inl kind)) :=
  fun _ _ tail => nomatch tail

theorem Tails.map (p : Parser α) (f : α → StmtKind) : Tails ((fun a => .inl (f a)) <$> p) :=
  fun _ _ tail => nomatch tail

theorem Tails.bind {p : Parser α} {f : α → Parser (StmtKind ⊕ Expr)} (h : ∀ a, Tails (f a)) :
    Tails (p >>= f) := fun s e tail => h (p s).1 (p s).2 e tail

/-- After a statement come more, and after the value of a block nothing. -/
theorem Tails.drains {n debt : Nat} {p : Parser (StmtKind ⊕ Expr)} {w : StmtKind ⊕ Expr → Nat}
    {f : StmtKind ⊕ Expr → Parser α} {w' : α → Nat} (tails : Tails p) (h : Reads debt 1 p w)
    (more : ∀ kind, Drains n (w (.inl kind)) (f (.inl kind)) w')
    (last : ∀ e, Reads (w (.inr e)) 0 (f (.inr e)) w') : Drains (n + 1) debt (p >>= f) w' := by
  constructor
  · refine h.pays.bind fun part => ?_
    cases part with
    | inl kind => exact (more kind).pays
    | inr e => exact (last e).pays
  · intro s enough
    change (f (p s).1 (p s).2).2.issues.size = s.issues.size → (f (p s).1 (p s).2).2.rest = [] ∧
      (f (p s).1 (p s).2).2.unread = s.unread
    have grows := (h s).pays.grows
    cases part : (p s).1 with
    | inl kind =>
      intro same
      have grows' := (more kind).grows (p s).2
      have moved := (h s).quiet (by omega)
      have left := moved.rest
      obtain ⟨rest, unread⟩ := (more kind).quiet (p s).2 (by omega) (by omega)
      exact ⟨rest, unread.trans moved.unread⟩
    | inr e =>
      intro same
      have grows' := (last e (p s).2).pays.grows
      have moved := (h s).quiet (by omega)
      have moved' := (last e (p s).2).quiet (by omega)
      have left := moved'.rest
      rw [tails s e part] at left
      exact ⟨List.length_eq_zero_iff.mp (Nat.le_zero.mp left),
        moved'.unread.trans moved.unread⟩

theorem exprStmt_tails (target : Expr) : Tails (exprStmt g target) := by
  apply Tails.bind
  intro op
  cases op with
  | some op => exact .bind fun _ => .bind fun _ => .bind fun _ => .pure _
  | none =>
  apply Tails.bind
  intro semi
  cases semi with
  | some _ => exact .pure _
  | none =>
  intro s e
  change (((if s.atEnd then _ else _) : Parser (StmtKind ⊕ Expr)) s).1 = _ →
    (((if s.atEnd then _ else _) : Parser (StmtKind ⊕ Expr)) s).2.rest = []
  split
  · rename_i done
    exact fun _ => List.isEmpty_iff.mp done
  · split
    · exact Tails.bind (fun _ => .pure _) s e
    · exact Tails.pure _ s e

theorem statement_tails : Tails (statement g) := by
  apply Tails.bind
  intro kind
  split
  · exact .bind fun _ => .pure _
  · exact .map (letStmt g) id
  · exact .map (assertion g) .assert
  · exact .map (jump .breakLoop) id
  · exact .map (jump .continueLoop) id
  · apply Tails.bind
    intro starts
    split
    · exact .bind fun e => exprStmt_tails e
    · exact .bind fun _ => .bind fun _ => .bind fun _ => .pure _

theorem statements_drains (reading : g.Reading) (n : Nat) : Drains n 0 (statements g n) fun r =>
    Stmt.gapsOfList r.1 + Expr.gapsOfOption r.2 := by
  induction n with
  | zero =>
    rw [statements]
    exact .nothing (Nat.le_refl _)
  | succ n ih =>
    rw [statements]
    refine unlessDone_drains (Nat.zero_le _) (.skip (look_reads _) fun start => ?_)
    apply statement_tails.drains (statement_reads reading)
    · intro kind
      refine .skip (look_reads _) fun span => .after (ih.more _) fun r => .pure ?_
      exact Nat.le_of_eq (Nat.add_assoc kind.gaps _ _)
    · exact fun e => .pure (Nat.le_of_eq (Nat.zero_add e.gaps))

theorem blockRule_reads (reading : g.Reading) (group : Group) :
    Reads 0 0 (blockRule g group) Block.gaps :=
  .bind (inside_reads (statements_drains reading _)) fun _ => .pure (Nat.le_refl _)

/-- The rules of any depth pay for their gaps and read what is there. -/
theorem ofDepth_reading (n : Nat) : (ofDepth n).Reading := by
  induction n with
  | zero =>
    have nothing {β : Type} (k : Nat) (f : Span → β) {w : β → Nat} (h : ∀ span, w (f span) ≤ 1) :
        Reads 0 k (do return f (← missing .unexpectedToken)) w :=
      .lead (missing_reads k _) fun here => .pure (h here)
    exact ⟨fun _ => nothing 1 _ fun _ => Nat.le_refl _, fun _ => nothing 1 _ fun _ => Nat.le_refl _,
      nothing 1 _ fun _ => Nat.le_refl _, fun _ => nothing 0 _ fun _ => Nat.zero_le _,
      fun _ => nothing 1 _ fun _ => Nat.le_refl _, fun _ => nothing 1 _ fun _ => Nat.zero_le _⟩
  | succ n ih =>
    exact ⟨exprRule_reads ih, unaryRule_reads ih, ifRule_reads ih, blockRule_reads ih,
      typeRule_reads ih, patRule_reads ih⟩

/-! ## Items -/

theorem useItem_reads : Reads 0 1 useItem ItemKind.gaps := by
  refine .skip next_accepts.reads fun _ => .skip (accept_accepts _).reads fun found => ?_
  have rest (kind : ItemKind) : Reads kind.gaps 1 (do
      let _ ← expect .semi .expectedSemicolon
      return kind) ItemKind.gaps :=
    .first (expect_reads _ _) fun _ => .pure (Nat.le_refl _)
  cases found with
  | some t =>
    dsimp only
    rw [pure_bind]
    exact rest (.useModule _ _)
  | none =>
    refine .bind (missing_reads 0 _) fun _ => ?_
    rw [pure_bind]
    exact rest .empty

theorem typedName_reads (reading : g.Reading) (nameCode typeCode : IssueCode) :
    Reads 0 1 (typedName g nameCode typeCode) fun p => p.2.gaps := by
  refine .first (ident_reads _) fun name => .skip (expect_reads _ _) fun _ => ?_
  exact .bind (reading.type _) fun _ => .pure (Nat.le_refl _)

theorem fnName_reads : Reads 0 0 fnName fun _ => 0 := by
  refine .skip (look_reads _) fun kind => ?_
  split
  · exact .skip next_accepts.reads fun _ => .skip (look_reads _) fun _ => .pure (Nat.le_refl _)
  · exact .skip (ident_reads _) fun _ => .pure (Nat.le_refl _)

def paramGaps (params : List (Ident × TypeExpr)) : Nat := (params.map (·.2.gaps)).sum

/-- From the result type of a function on. -/
theorem fnResult_reads (reading : g.Reading) (name : FnName) (generics : List Ident)
    (params : List (Ident × TypeExpr)) : Reads (paramGaps params) 1 (do
      let ret ← match ← accept (.op .arrow) with
        | some _ => some <$> g.type .expectedReturnType
        | .none => pure .none
      let body ← blockOr g .expectedFnBody
      return (⟨name, generics, params.map fun p => ⟨p.1, p.2⟩, ret, body⟩ : FnDecl))
      FnDecl.gaps := by
  have rest (ret : Option TypeExpr) : Reads (paramGaps params + TypeExpr.gapsOfOption ret) 1 (do
      let body ← blockOr g .expectedFnBody
      return (⟨name, generics, params.map fun p => ⟨p.1, p.2⟩, ret, body⟩ : FnDecl))
      FnDecl.gaps :=
    .lead ((blockOr_reads reading _).more _) fun _ =>
      .pure (by simp [FnDecl.gaps, paramGaps, Function.comp_def])
  refine .skip (accept_accepts _).reads fun found => ?_
  cases found with
  | some _ => exact .also (.map (reading.type _) fun _ => Nat.le_refl _) rest
  | none =>
    dsimp only
    rw [pure_bind]
    exact rest .none

/-- From the parameters of a function on. -/
theorem fnParams_reads (reading : g.Reading) (name : FnName) (generics : List Ident) :
    Reads 0 1 (do
      let params ← match ← acceptGroup .lparen with
        | some group =>
          Prod.fst <$> commaList group .none false
            (typedName g .expectedParamName .expectedParamType)
        | .none => do
          let _ ← missing .expectedParamList
          pure []
      let ret ← match ← accept (.op .arrow) with
        | some _ => some <$> g.type .expectedReturnType
        | .none => pure .none
      let body ← blockOr g .expectedFnBody
      return (⟨name, generics, params.map fun p => ⟨p.1, p.2⟩, ret, body⟩ : FnDecl))
      FnDecl.gaps := by
  refine .skip (acceptGroup_accepts _).reads fun found => ?_
  cases found with
  | some group =>
    exact .bind (.map (commaList_reads (typedName_reads reading _ _) group _ false) fun _ =>
      Nat.le_refl _) (fnResult_reads reading name generics)
  | none =>
    refine .skip (missing_free 0 _) fun _ => ?_
    rw [pure_bind]
    exact fnResult_reads reading name generics []

theorem fnItem_reads (reading : g.Reading) : Reads 0 1 (fnItem g) FnDecl.gaps := by
  refine .skip next_accepts.reads fun _ => .skip fnName_reads fun name => ?_
  refine .skip (acceptGroup_accepts _).reads fun found => ?_
  cases found with
  | some group =>
    exact .skip (.map (commaList_free (ident_reads _) group _ false) fun _ => Nat.le_refl _)
      (fnParams_reads reading name)
  | none =>
    dsimp only
    rw [pure_bind]
    exact fnParams_reads reading name []

theorem structVariant_reads (reading : g.Reading) :
    Reads 0 1 (structVariant g) StructDecl.gaps := by
  refine .first (ident_reads _) fun name => ?_
  have rest (fields : List (Ident × TypeExpr)) : Reads (paramGaps fields) 0 (do
      return (⟨name, fields.map fun f => ⟨f.1, f.2⟩, ← look (·.spanFrom name.span)⟩ :
        StructDecl)) StructDecl.gaps :=
    .skip (look_reads _) fun _ =>
      .pure (by simp [StructDecl.gaps, paramGaps, Function.comp_def])
  apply (acceptGroup_accepts _).bind
  · exact fun group => .bind (.map (commaList_reads (typedName_reads reading _ _) group _ false)
      fun _ => Nat.le_refl _) rest
  · refine .skip (missing_free 0 _) fun _ => ?_
    rw [pure_bind]
    exact rest []

/-- A round reads at least a name. -/
theorem structVariants_round (reading : g.Reading) {n : Nat}
    (others : Reads 0 0 (structVariants g n) fun vs => (vs.map StructDecl.gaps).sum) :
    Reads 0 1 (structVariants g (n + 1)) fun vs => (vs.map StructDecl.gaps).sum := by
  rw [structVariants]
  refine .lead (structVariant_reads reading) fun variant => ?_
  have alone : Reads variant.gaps 0 (pure [variant]) fun vs => (vs.map StructDecl.gaps).sum :=
    .pure (by simp)
  apply (accept_accepts _).bind
  · intro _
    refine .skip (look_reads _) fun named => ?_
    split
    · exact .also others fun _ => .pure (by simp)
    · exact .skip (missing_free 0 _) fun _ => alone
  · exact alone

theorem structVariants_reads (reading : g.Reading) (n : Nat) :
    Reads 0 0 (structVariants g n) fun vs => (vs.map StructDecl.gaps).sum := by
  induction n with
  | zero =>
    rw [structVariants]
    exact .pure (Nat.le_refl _)
  | succ n ih => exact (structVariants_round reading ih).weaken (Nat.zero_le _)

theorem structItem_reads (reading : g.Reading) :
    Reads 0 1 (structItem g) fun group => (group.variants.map StructDecl.gaps).sum := by
  refine .skip next_accepts.reads fun _ => .skip (look_reads _) fun n => ?_
  refine .lead (structVariants_round reading (structVariants_reads reading n)) fun variants => ?_
  exact .skip (accept_accepts _).reads fun _ => .pure (Nat.le_refl _)

theorem constItem_reads (reading : g.Reading) : Reads 0 1 (constItem g) ItemKind.gaps := by
  refine .skip next_accepts.reads fun _ => .first (ident_reads _) fun name => ?_
  refine .bind (annotated_reads reading _) fun ty => .skip (expect_reads _ _) fun _ => ?_
  refine .also (reading.exprOr true _) fun value => ?_
  exact .skip (expect_reads _ _) fun _ => .pure (Nat.le_refl _)

theorem paramName_reads : Reads 0 1 paramName fun _ => 0 := by
  apply (acceptAny_accepts _).bind
  · intro t
    dsimp only
    split
    · exact identOf_reads t 1
    · exact .skip (raise_free 0 _ _) fun _ => identOf_reads t 0
  · exact .first (missing_free 1 _) fun _ => .pure (Nat.le_refl _)

theorem paramItem_reads (reading : g.Reading) : Reads 0 1 (paramItem g) ItemKind.gaps := by
  refine .skip next_accepts.reads fun _ => .first paramName_reads fun name => ?_
  refine .skip (expect_reads _ _) fun _ => .bind (reading.type _) fun ty => ?_
  exact .skip (expect_reads _ _) fun _ => .pure (Nat.le_refl _)

theorem item_reads (reading : g.Reading) : Reads 0 1 (item g) ItemKind.gaps := by
  refine .skip (look_reads _) fun kind => ?_
  split
  · exact useItem_reads
  · exact .map (fnItem_reads reading) fun _ => Nat.le_refl _
  · exact .map (structItem_reads reading) fun _ => Nat.le_refl _
  · exact .map (structItem_reads reading) fun _ => Nat.le_refl _
  · exact constItem_reads reading
  · exact paramItem_reads reading
  · exact .map (assertion_reads reading) fun _ => Nat.le_refl _
  · refine .skip (look_reads _) fun start => .skip next_accepts.reads fun n => ?_
    refine .reported (raise_pays _ _) fun _ => ?_
    exact .skip (skipUntil_pays _) fun _ => .pure (Nat.le_refl _)

theorem scriptItems_drains (reading : g.Reading) (n : Nat) :
    Drains n 0 (scriptItems g n) fun items => (items.map (·.kind.gaps)).sum := by
  induction n with
  | zero =>
    rw [scriptItems]
    exact .nothing (Nat.le_refl _)
  | succ n ih =>
    rw [scriptItems]
    refine unlessDone_drains (Nat.zero_le _) (.skip (look_reads _) fun start => ?_)
    refine .bind (item_reads reading) fun kind => .skip (look_reads _) fun span => ?_
    exact .after (ih.more _) fun _ => .pure (by simp)

end Grammar

namespace Script

def gaps (s : Script) : Nat := (s.items.map (·.kind.gaps)).sum

theorem parser_pays {g : Grammar} (reading : g.Reading) : Pays 0 (Script.parser g) gaps := by
  refine .skip (Parser.look_reads _).pays fun n => ?_
  exact .bind (Grammar.scriptItems_drains reading n).pays fun _ => .pure (Nat.le_refl _)

theorem parse_raised (chunk : Nat) (text : String) :
    ∃ raised, (Script.parse chunk text).issues = (TokenTree.ofText chunk text).2 ++ raised ∧
      (Script.parse chunk text).result.gaps ≤ raised.length := by
  have rules := Grammar.ofDepth_reading ((TokenTree.ofText chunk text).1.tokens.length + 1)
  obtain ⟨raised, issues, paid⟩ := (parser_pays rules
    { Stream.ofTree (TokenTree.ofText chunk text).1 with
      issues := (TokenTree.ofText chunk text).2.toArray }).raised
  exact ⟨raised.toList, (congrArg Array.toList issues).trans Array.toList_append, paid⟩

theorem gaps_of_quiet {chunk : Nat} {text : String} (none : (Script.parse chunk text).issues = []) :
    (Script.parse chunk text).result.gaps = 0 := by
  obtain ⟨raised, issues, paid⟩ := parse_raised chunk text
  have empty : raised = [] := (List.append_eq_nil_iff.mp (issues.symm.trans none)).2
  rw [empty] at paid
  exact Nat.le_zero.mp paid

/-- The issues of a text are those of its tokens and those that the rules have raised, and of these
there are at least as many as there are placeholders in the script. Without issues there is no
placeholder. -/
theorem placeholders_le_raised (chunk : Nat) (text : String) :
    (∃ raised, (Script.parse chunk text).issues = (TokenTree.ofText chunk text).2 ++ raised ∧
      (Script.parse chunk text).result.placeholders ≤ raised.length) ∧
    ((Script.parse chunk text).issues = [] →
      (Script.parse chunk text).result.placeholders = 0) := by
  have counted : (Script.parse chunk text).result.placeholders ≤
      (Script.parse chunk text).result.gaps := sum_map_le _ fun i => i.kind.placeholders_le_gaps
  obtain ⟨raised, issues, paid⟩ := parse_raised chunk text
  refine ⟨⟨raised, issues, counted.trans paid⟩, fun none => ?_⟩
  exact Nat.le_zero.mp (gaps_of_quiet none ▸ counted)

end Script
end Ember
