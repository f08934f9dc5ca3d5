import Ember.Proofs.Safe.Reduce
import Ember.Proofs.Safe.Start
import Ember.Proofs.Steady

/-!
# Placeholders that lowering does not meet

An expression may hold placeholders where lowering never looks, in the side of a condition that is
not taken. `mended` puts in the place of each something that is clean and cannot be lowered either.
So whatever lowering makes of an expression, it makes of the mended one too, and values are well
formed whatever expression they come from.
-/

set_option autoImplicit false

namespace Ember

/-! ## Mending -/

def TypeKind.unnamed (span : Span) : TypeKind := .named ⟨"", span⟩ [⟨.named ⟨"", span⟩ [], span⟩]

mutual

/-- The expression with an empty array for every placeholder, and for foreign text. -/
def Expr.mended : Expr → Expr
  | ⟨kind, span⟩ => ⟨kind.mended, span⟩

def ExprKind.mended : ExprKind → ExprKind
  | .empty | .source _ => .array []
  | .lit l => .lit l
  | .ident name => .ident name
  | .builtin name => .builtin name
  | .param name => .param name
  | .symbol name => .symbol name
  | .binary op lhs rhs => .binary op lhs.mended rhs.mended
  | .unary op operand => .unary op operand.mended
  | .deriv var body => .deriv var body.mended
  | .range start stop => .range (Expr.mendedOption start) (Expr.mendedOption stop)
  | .call callee types args =>
    .call callee.mended (TypeExpr.mendedList types) (Expr.mendedList args)
  | .methodCall receiver method args => .methodCall receiver.mended method (Expr.mendedList args)
  | .field base name => .field base.mended name
  | .index base i => .index base.mended i.mended
  | .structLit head inits => .structLit head (FieldInit.mendedList inits)
  | .array items => .array (Expr.mendedList items)
  | .block b => .block b.mended
  | .ifElse cond yes no => .ifElse cond.mended yes.mended (Expr.mendedOption no)
  | .matchArms subject arms => .matchArms subject.mended (MatchArm.mendedList arms)
  | .forLoop label pat iter body => .forLoop label pat iter.mended body.mended

def Expr.mendedOption : Option Expr → Option Expr
  | none => none
  | some e => some e.mended

def Expr.mendedList : List Expr → List Expr
  | [] => []
  | e :: es => e.mended :: Expr.mendedList es

def FieldInit.mendedList : List FieldInit → List FieldInit
  | [] => []
  | ⟨name, value⟩ :: inits => ⟨name, value.mended⟩ :: FieldInit.mendedList inits

def MatchArm.mendedList : List MatchArm → List MatchArm
  | [] => []
  | ⟨pat, body, span⟩ :: arms => ⟨pat, body.mended, span⟩ :: MatchArm.mendedList arms

def Block.mended : Block → Block
  | ⟨stmts, tail, span⟩ => ⟨Stmt.mendedList stmts, Expr.mendedOption tail, span⟩

def Stmt.mendedList : List Stmt → List Stmt
  | [] => []
  | ⟨kind, span⟩ :: ss => ⟨kind.mended, span⟩ :: Stmt.mendedList ss

def StmtKind.mended : StmtKind → StmtKind
  | .empty => .empty
  | .letBind pat ty value => .letBind pat (TypeExpr.mendedOption ty) value.mended
  | .assign op target value => .assign op target.mended value.mended
  | .expr e => .expr e.mended
  | .assert cond => .assert cond.mended
  | .breakLoop label => .breakLoop label
  | .continueLoop label => .continueLoop label

def TypeExpr.mended : TypeExpr → TypeExpr
  | ⟨.empty, span⟩ | ⟨.alt [], span⟩ => ⟨.unnamed span, span⟩
  | ⟨.named name args, span⟩ => ⟨.named name (TypeExpr.mendedList args), span⟩
  | ⟨.array of len, span⟩ => ⟨.array of.mended len.mended, span⟩
  | ⟨.alt (t :: ts), span⟩ => ⟨.alt (t.mended :: TypeExpr.mendedList ts), span⟩

def TypeExpr.mendedList : List TypeExpr → List TypeExpr
  | [] => []
  | t :: ts => t.mended :: TypeExpr.mendedList ts

def TypeExpr.mendedOption : Option TypeExpr → Option TypeExpr
  | none => none
  | some t => some t.mended

end

mutual

theorem Expr.mended_clean : ∀ e : Expr, e.mended.Clean
  | ⟨.empty, _⟩ | ⟨.source _, _⟩ => .array (List.forall_mem_nil _)
  | ⟨.lit _, _⟩ => .lit
  | ⟨.ident _, _⟩ => .ident
  | ⟨.builtin _, _⟩ => .builtin
  | ⟨.param _, _⟩ => .param
  | ⟨.symbol _, _⟩ => .symbol
  | ⟨.binary _ a b, _⟩ => .binary a.mended_clean b.mended_clean
  | ⟨.unary _ a, _⟩ => .unary a.mended_clean
  | ⟨.deriv _ body, _⟩ => .deriv body.mended_clean
  | ⟨.range a b, _⟩ => .range (Expr.mendedOption_clean a) (Expr.mendedOption_clean b)
  | ⟨.call callee types args, _⟩ =>
    .call callee.mended_clean (TypeExpr.mendedList_clean types) (Expr.mendedList_clean args)
  | ⟨.methodCall receiver _ args, _⟩ =>
    .methodCall receiver.mended_clean (Expr.mendedList_clean args)
  | ⟨.field base _, _⟩ => .field base.mended_clean
  | ⟨.index base i, _⟩ => .index base.mended_clean i.mended_clean
  | ⟨.structLit _ inits, _⟩ => .structLit (FieldInit.mendedList_clean inits)
  | ⟨.array items, _⟩ => .array (Expr.mendedList_clean items)
  | ⟨.block b, _⟩ => .block b.mended_clean
  | ⟨.ifElse cond yes no, _⟩ =>
    .ifElse cond.mended_clean yes.mended_clean (Expr.mendedOption_clean no)
  | ⟨.matchArms subject arms, _⟩ =>
    .matchArms subject.mended_clean (MatchArm.mendedList_clean arms)
  | ⟨.forLoop _ _ iter body, _⟩ => .forLoop iter.mended_clean body.mended_clean

theorem Expr.mendedOption_clean : ∀ o : Option Expr, ∀ e ∈ Expr.mendedOption o, e.Clean
  | none => by simp [Expr.mendedOption]
  | some e => by simpa [Expr.mendedOption] using e.mended_clean

theorem Expr.mendedList_clean : ∀ es : List Expr, ∀ e ∈ Expr.mendedList es, e.Clean
  | [] => by simp [Expr.mendedList]
  | e :: es => List.forall_mem_cons.mpr ⟨e.mended_clean, Expr.mendedList_clean es⟩

theorem FieldInit.mendedList_clean :
    ∀ inits : List FieldInit, ∀ i ∈ FieldInit.mendedList inits, i.value.Clean
  | [] => by simp [FieldInit.mendedList]
  | ⟨_, value⟩ :: inits =>
    List.forall_mem_cons.mpr ⟨value.mended_clean, FieldInit.mendedList_clean inits⟩

theorem MatchArm.mendedList_clean :
    ∀ arms : List MatchArm, ∀ a ∈ MatchArm.mendedList arms, a.body.Clean
  | [] => by simp [MatchArm.mendedList]
  | ⟨_, body, _⟩ :: arms =>
    List.forall_mem_cons.mpr ⟨body.mended_clean, MatchArm.mendedList_clean arms⟩

theorem Block.mended_clean : ∀ b : Block, b.mended.Clean
  | ⟨stmts, tail, _⟩ => .mk (Stmt.mendedList_clean stmts) (Expr.mendedOption_clean tail)

theorem Stmt.mendedList_clean : ∀ ss : List Stmt, ∀ s ∈ Stmt.mendedList ss, s.Clean
  | [] => by simp [Stmt.mendedList]
  | ⟨kind, span⟩ :: ss =>
    List.forall_mem_cons.mpr ⟨kind.mended_clean span, Stmt.mendedList_clean ss⟩

theorem StmtKind.mended_clean : ∀ (k : StmtKind) (span : Span), Stmt.Clean ⟨k.mended, span⟩
  | .empty, _ => .empty
  | .letBind _ ty value, _ => .letBind (TypeExpr.mendedOption_clean ty) value.mended_clean
  | .assign _ target value, _ => .assign target.mended_clean value.mended_clean
  | .expr e, _ => .expr e.mended_clean
  | .assert cond, _ => .assert cond.mended_clean
  | .breakLoop _, _ => .breakLoop
  | .continueLoop _, _ => .continueLoop

theorem TypeExpr.mended_clean : ∀ t : TypeExpr, t.mended.Clean
  | ⟨.empty, _⟩ | ⟨.alt [], _⟩ => .named (by simpa using TypeExpr.Clean.named (by simp))
  | ⟨.named _ args, _⟩ => .named (TypeExpr.mendedList_clean args)
  | ⟨.array of len, _⟩ => .array of.mended_clean len.mended_clean
  | ⟨.alt (t :: ts), _⟩ =>
    .alt (by simp) (List.forall_mem_cons.mpr ⟨t.mended_clean, TypeExpr.mendedList_clean ts⟩)

theorem TypeExpr.mendedList_clean : ∀ ts : List TypeExpr, ∀ t ∈ TypeExpr.mendedList ts, t.Clean
  | [] => by simp [TypeExpr.mendedList]
  | t :: ts => List.forall_mem_cons.mpr ⟨t.mended_clean, TypeExpr.mendedList_clean ts⟩

theorem TypeExpr.mendedOption_clean :
    ∀ o : Option TypeExpr, ∀ t ∈ TypeExpr.mendedOption o, t.Clean
  | none => by simp [TypeExpr.mendedOption]
  | some t => by simpa [TypeExpr.mendedOption] using t.mended_clean

end

/-! ## Derivatives -/

namespace Expr

@[simp]
theorem mended_span (e : Expr) : e.mended.span = e.span := by
  cases e
  rfl

@[simp]
theorem number?_mended (e : Expr) : e.mended.number? = e.number? := by
  obtain ⟨kind, span⟩ := e
  cases kind <;> rfl

@[simp]
theorem isNumber_mended (e : Expr) (v : Float) : e.mended.isNumber v = e.isNumber v := by
  simp [isNumber]

@[simp]
theorem calledName?_mended (e : Expr) : e.mended.calledName? = e.calledName? := by
  obtain ⟨kind, span⟩ := e
  cases kind <;> rfl

@[simp]
theorem mended_number (v : Float) (span : Span) : (number v span).mended = number v span := rfl

@[simp]
theorem mended_binary (op : BinaryOp) (a b : Expr) :
    (binary op a b).mended = binary op a.mended b.mended := by
  simp [binary, mended, ExprKind.mended]

@[simp]
theorem mended_callBuiltin (name : String) (u : Expr) :
    (callBuiltin name u).mended = callBuiltin name u.mended := by
  simp [callBuiltin, mended, ExprKind.mended, mendedList, TypeExpr.mendedList]

@[simp]
theorem mended_negative (a : Expr) : (negative a).mended = negative a.mended := by
  unfold negative
  rw [number?_mended, mended_span]
  cases a.number? <;> rfl

@[simp]
theorem mended_sum (a b : Expr) : (sum a b).mended = sum a.mended b.mended := by
  unfold sum
  simp only [isNumber_mended]
  split_ifs
  · rfl
  · rfl
  · exact mended_binary .add a b

@[simp]
theorem mended_difference (a b : Expr) :
    (difference a b).mended = difference a.mended b.mended := by
  unfold difference
  simp only [isNumber_mended]
  split_ifs
  · rfl
  · exact mended_negative b
  · exact mended_binary .sub a b

@[simp]
theorem mended_product (a b : Expr) : (product a b).mended = product a.mended b.mended := by
  unfold product
  simp only [isNumber_mended, mended_span]
  split_ifs
  · rfl
  · rfl
  · rfl
  · exact mended_binary .mul a b

@[simp]
theorem mended_quotient (a b : Expr) : (quotient a b).mended = quotient a.mended b.mended := by
  unfold quotient
  simp only [isNumber_mended]
  split_ifs
  · rfl
  · exact mended_binary .div a b

mutual

theorem mentions_mended (x : String) : ∀ e : Expr, mentions x e.mended = mentions x e
  | ⟨.lit _, _⟩ | ⟨.param _, _⟩ | ⟨.builtin _, _⟩ | ⟨.symbol _, _⟩ | ⟨.ident _, _⟩ => rfl
  | ⟨.unary _ a, _⟩ => mentions_mended x a
  | ⟨.binary _ a b, _⟩ => congrArg₂ (· || ·) (mentions_mended x a) (mentions_mended x b)
  | ⟨.call _ _ args, _⟩ => anyMentions_mended x args
  | ⟨.empty, _⟩ | ⟨.deriv _ _, _⟩ | ⟨.range _ _, _⟩ | ⟨.methodCall _ _ _, _⟩ | ⟨.field _ _, _⟩
  | ⟨.index _ _, _⟩ | ⟨.structLit _ _, _⟩ | ⟨.array _, _⟩ | ⟨.block _, _⟩
  | ⟨.ifElse _ _ _, _⟩ | ⟨.matchArms _ _, _⟩ | ⟨.forLoop _ _ _ _, _⟩ | ⟨.source _, _⟩ => rfl

theorem anyMentions_mended (x : String) :
    ∀ es : List Expr, anyMentions x (Expr.mendedList es) = anyMentions x es
  | [] => rfl
  | e :: es => congrArg₂ (· || ·) (mentions_mended x e) (anyMentions_mended x es)

end

theorem chain_mended {name : String} {u du d : Expr} {span : Span}
    (made : chain name u du span = .ok d) :
    chain name u.mended du.mended span = .ok d.mended := by
  unfold chain at made ⊢
  split_ifs at made ⊢ <;> cases made <;> simp

/-- The derivative is taken of clean parts only, so it may be taken of the mended expression. -/
theorem derivative_mended {x : String} {e d : Expr} (made : e.derivative x = .ok d) :
    e.mended.derivative x = .ok d.mended := by
  fun_induction derivative x e generalizing d with
  | case1 | case2 | case3 | case4 | case5 =>
    cases made
    rfl
  | case6 a span ih =>
    obtain ⟨da, ha, ⟨⟩⟩ := ok_of_bind made
    simp [mended, ExprKind.mended, derivative, ih ha]
  | case7 a b span iha ihb | case8 a b span iha ihb | case9 a b span iha ihb
  | case10 a b span iha ihb =>
    obtain ⟨da, ha, made⟩ := ok_of_bind made
    obtain ⟨db, hb, ⟨⟩⟩ := ok_of_bind made
    simp [mended, ExprKind.mended, derivative, iha ha, ihb hb, bind, Except.bind,
      pure, Except.pure]
  | case11 => cases made
  | case12 a b span free ih =>
    obtain ⟨da, ha, ⟨⟩⟩ := ok_of_bind made
    simp [mended, ExprKind.mended, derivative, mentions_mended, free, ih ha]
  | case13 callee u span name called ih =>
    obtain ⟨du, hu, made⟩ := ok_of_bind made
    simp [mended, ExprKind.mended, mendedList, TypeExpr.mendedList, derivative, called, ih hu,
      chain_mended made, bind, Except.bind]
  | case14 => cases made
  | case15 tail span span' ih => exact ih made
  | case16 => cases made

end Expr

/-! ## Lowering -/

variable {α β : Type}

/-- Whatever the one action gives, the other gives too. -/
def Carries (act act' : Emit α) : Prop :=
  ∀ (s : Emission) (a : α) (t : Emission), act s = .ok a t → act' s = .ok a t

namespace Carries

variable {act act' : Emit α}

theorem refl (act : Emit α) : Carries act act := fun _ _ _ => id

theorem bind {next next' : α → Emit β} (h : Carries act act')
    (then_ : ∀ a, Carries (next a) (next' a)) : Carries (act >>= next) (act' >>= next') := by
  intro s b t run
  obtain ⟨a, m, first, rest⟩ := bind_eq_ok.mp run
  change EStateM.bind act' next' s = _
  unfold EStateM.bind
  rw [h s a m first]
  exact then_ a m b t rest

/-- The same action, and what follows it. -/
theorem after {next next' : α → Emit β} (then_ : ∀ a, Carries (next a) (next' a)) :
    Carries (act >>= next) (act >>= next') := (refl act).bind then_

/-- An action, and the same that follows it. -/
theorem before {next : α → Emit β} (h : Carries act act') :
    Carries (act >>= next) (act' >>= next) := h.bind fun a => refl (next a)

theorem locating {span : Span} (h : Carries act act') :
    Carries (Emit.locating span act) (Emit.locating span act') := by
  intro s a t run
  unfold Emit.locating at run ⊢
  cases first : act s with
  | ok b m =>
    rw [first] at run
    rw [h s b m first]
    exact run
  | error f m =>
    rw [first] at run
    cases run

theorem bracket {enter leave : Emission → Emission} (h : Carries act act') :
    Carries (Emit.bracket enter leave act) (Emit.bracket enter leave act') := by
  intro s a t run
  unfold Emit.bracket at run ⊢
  cases first : act (enter s) with
  | ok b m =>
    rw [first] at run
    rw [h _ b m first]
    exact run
  | error f m =>
    rw [first] at run
    cases run

theorem inBlock (h : Carries act act') : Carries (Emit.inBlock act) (Emit.inBlock act') :=
  h.before.bracket

theorem nested (h : Carries act act') : Carries (Emit.nested act) (Emit.nested act') :=
  h.inBlock.before

theorem inLoop {loop : Loop} (h : Carries act act') :
    Carries (Emit.inLoop loop act) (Emit.inLoop loop act') := h.bracket

theorem ite {c : Prop} [Decidable c] {other other' : Emit α} (yes : Carries act act')
    (no : Carries other other') :
    Carries (if c then act else other) (if c then act' else other') := by
  split
  · exact yes
  · exact no

end Carries

structure Lowering.Mends (cx : Lowering) : Prop where
  expr : ∀ e, Carries (cx.expr e) (cx.expr e.mended)
  block : ∀ b, Carries (cx.block b) (cx.block b.mended)

theorem TypeExpr.mended_span (t : TypeExpr) : t.mended.span = t.span := by
  obtain ⟨kind, span⟩ := t
  cases kind with
  | alt members => cases members <;> rfl
  | _ => rfl

theorem Lowering.memberTypes_cons (cx : Lowering) (t : TypeExpr) (ts : List TypeExpr) :
    cx.memberTypes (t :: ts) = (do
      let structs ← memberStructs (← cx.type t) t.span
      return structs ++ (← cx.memberTypes ts)) := by
  cases t
  rw [memberTypes]

namespace Carries

open Emit

variable {cx : Lowering}

theorem arrayLength (mends : cx.Mends) (len : Expr) :
    Carries (cx.arrayLength len) (cx.arrayLength len.mended) := by
  unfold Lowering.arrayLength
  rw [Expr.mended_span]
  exact (mends.expr len).inBlock.before

mutual

theorem type (mends : cx.Mends) : ∀ t : TypeExpr, Carries (cx.type t) (cx.type t.mended)
  | ⟨.empty, span⟩ => by
    intro s a t run
    rw [Lowering.type] at run
    cases run
  | ⟨.named name args, span⟩ => by
    rw [TypeExpr.mended, Lowering.type, Lowering.type]
    cases args <;> exact refl _
  | ⟨.array of len, span⟩ => by
    rw [TypeExpr.mended, Lowering.type, Lowering.type]
    exact ((type mends of).bind fun _ => (arrayLength mends len).before).locating
  | ⟨.alt [], span⟩ => by
    intro s a t run
    rw [Lowering.type] at run
    cases run
  | ⟨.alt (t :: ts), span⟩ => by
    rw [TypeExpr.mended, Lowering.type, Lowering.type]
    exact (memberTypes mends (t :: ts)).before.locating

theorem memberTypes (mends : cx.Mends) : ∀ ts : List TypeExpr,
    Carries (cx.memberTypes ts) (cx.memberTypes (TypeExpr.mendedList ts))
  | [] => refl _
  | t :: ts => by
    rw [TypeExpr.mendedList, Lowering.memberTypes_cons, Lowering.memberTypes_cons,
      TypeExpr.mended_span]
    exact (type mends t).bind fun _ => after fun _ => (memberTypes mends ts).before

end

variable (mends : cx.Mends)

include mends

theorem types (ts : List TypeExpr) : Carries (cx.types ts) (cx.types (TypeExpr.mendedList ts)) := by
  unfold Lowering.types
  induction ts with
  | nil => exact refl _
  | cons t ts ih =>
    rw [TypeExpr.mendedList, List.mapM_cons, List.mapM_cons]
    exact (type mends t).bind fun _ => ih.before

theorem exprs (es : List Expr) : Carries (cx.exprs es) (cx.exprs (Expr.mendedList es)) := by
  induction es with
  | nil => exact refl _
  | cons e es ih =>
    rw [Expr.mendedList, Lowering.exprs, Lowering.exprs]
    exact (mends.expr e).bind fun _ => ih.before

theorem callExpr (callee : Expr) (types' : List TypeExpr) (args : List Expr) (span : Span) :
    Carries (cx.callExpr callee types' args span)
      (cx.callExpr callee.mended (TypeExpr.mendedList types') (Expr.mendedList args) span) := by
  refine (exprs mends args).bind fun values => (types mends types').bind fun tys => ?_
  obtain ⟨kind, place⟩ := callee
  cases kind <;> exact refl _

/-! ### Literals -/

theorem initValues (seen : List Ident) (inits : List FieldInit) :
    Carries (cx.initValues seen inits) (cx.initValues seen (FieldInit.mendedList inits)) := by
  induction inits generalizing seen with
  | nil => exact refl _
  | cons i inits ih =>
    obtain ⟨name, e⟩ := i
    rw [FieldInit.mendedList, Lowering.initValues, Lowering.initValues]
    refine ite (after fun _ => ?_) ?_
    all_goals exact (mends.expr e).bind fun _ => (ih (name :: seen)).before

theorem structLit (head : StructHead) (inits : List FieldInit) :
    Carries (cx.structLit head inits) (cx.structLit head (FieldInit.mendedList inits)) :=
  (initValues mends [] inits).before

theorem elements (es : List Expr) :
    Carries (cx.elements es) (cx.elements (Expr.mendedList es)) := by
  induction es with
  | nil => exact refl _
  | cons e es ih =>
    rw [Expr.mendedList, Lowering.elements, Lowering.elements, Expr.mended_span]
    exact (mends.expr e).bind fun _ => after fun _ => ih.before

theorem arrayLit (items : List Expr) :
    Carries (cx.arrayLit items) (cx.arrayLit (Expr.mendedList items)) :=
  (elements mends items).before

/-! ### Conditions and loops -/

theorem ifElse (cond : Expr) (yes : Block) (no : Option Expr) :
    Carries (cx.ifElse cond yes no)
      (cx.ifElse cond.mended yes.mended (Expr.mendedOption no)) := by
  unfold Lowering.ifElse
  rw [Expr.mended_span]
  refine (mends.expr cond).bind fun v => after fun c => ?_
  cases no with
  | none =>
    rw [Expr.mendedOption]
    cases c.truth? with
    | none => exact (mends.block yes).inBlock.before
    | some b =>
      cases b with
      | true => exact (mends.block yes).nested
      | false => exact refl _
  | some other =>
    rw [Expr.mendedOption]
    cases c.truth? with
    | none => exact (mends.block yes).inBlock.bind fun _ => (mends.expr other).inBlock.before
    | some b =>
      cases b with
      | true => exact (mends.block yes).nested
      | false => exact mends.expr other

theorem arms (subject : Value) (span : Span) (as : List MatchArm) :
    Carries (cx.arms subject span as) (cx.arms subject span (MatchArm.mendedList as)) := by
  induction as with
  | nil => exact refl _
  | cons a as ih =>
    obtain ⟨pat, body, place⟩ := a
    rw [MatchArm.mendedList, Lowering.arms, Lowering.arms]
    have arm : Carries (cx.arm subject ⟨pat, body, place⟩)
        (cx.arm subject ⟨pat, body.mended, place⟩) := after fun _ => mends.expr body
    refine after fun test => ?_
    cases test.const? with
    | none => exact arm.inBlock.bind fun _ => ih.inBlock.before
    | some c =>
      cases test.truth? with
      | none => exact ih
      | some b =>
        cases b with
        | true => exact arm.nested
        | false => exact ih

theorem matchArms (subject : Expr) (as : List MatchArm) (span : Span) :
    Carries (cx.matchArms subject as span)
      (cx.matchArms subject.mended (MatchArm.mendedList as) span) :=
  (mends.expr subject).bind fun _ => after fun _ => after fun v => arms mends v span as

theorem counter (pat : Pat) (iter : Expr) :
    Carries (cx.counter pat iter) (cx.counter pat iter.mended) := by
  have array : Carries (cx.arrayCounter iter) (cx.arrayCounter iter.mended) := by
    unfold Lowering.arrayCounter
    rw [Expr.mended_span]
    exact (mends.expr iter).before
  obtain ⟨kind, span⟩ := iter
  cases kind with
  | range start stop =>
    cases start with
    | none => exact refl _
    | some a =>
      cases stop with
      | none => exact refl _
      | some b =>
        change Carries (cx.rangeCounter pat a b) (cx.rangeCounter pat a.mended b.mended)
        unfold Lowering.rangeCounter
        rw [Expr.mended_span, Expr.mended_span]
        exact (mends.expr a).bind fun _ => after fun _ => (mends.expr b).before
  | _ => exact array

theorem forLoop (label : Option Ident) (pat : Pat) (iter : Expr) (body : Block) :
    Carries (cx.forLoop label pat iter body) (cx.forLoop label pat iter.mended body.mended) := by
  unfold Lowering.forLoop
  refine ite (after fun _ => ?_) ?_
  all_goals
    refine after fun _ => (counter mends pat iter).bind fun _ => before (inLoop (inBlock ?_))
    exact after fun _ => (mends.block body).before

/-! ### Statements -/

theorem letBind (pat : Pat) (ty : Option TypeExpr) (value : Expr) :
    Carries (cx.letBind pat ty value)
      (cx.letBind pat (TypeExpr.mendedOption ty) value.mended) := by
  unfold Lowering.letBind
  rw [Expr.mended_span]
  refine (mends.expr value).bind fun v => ?_
  cases ty with
  | none => exact refl _
  | some t => exact (type mends t).before

theorem assign (op : AssignOp) (target value : Expr) :
    Carries (cx.assign op target value) (cx.assign op target.mended value.mended) := by
  unfold Lowering.assign
  rw [Expr.mended_span, Expr.mended_span]
  exact (mends.expr target).bind fun _ => (mends.expr value).before

theorem assert (cond : Expr) : Carries (cx.assert cond) (cx.assert cond.mended) := by
  unfold Lowering.assert
  rw [Expr.mended_span]
  exact (mends.expr cond).before

theorem stmts (ss : List Stmt) : Carries (cx.stmts ss) (cx.stmts (Stmt.mendedList ss)) := by
  induction ss with
  | nil => exact refl _
  | cons s ss ih =>
    obtain ⟨kind, span⟩ := s
    rw [Stmt.mendedList, Lowering.stmts, Lowering.stmts]
    refine Carries.bind (locating ?_) fun _ => ih
    cases kind with
    | empty | breakLoop _ | continueLoop _ => exact refl _
    | letBind pat ty value => exact letBind mends pat ty value
    | assign op target value => exact assign mends op target value
    | expr e => exact (mends.expr e).before
    | assert cond => exact assert mends cond

theorem blockStep (b : Block) : Carries (cx.blockStep b) (cx.blockStep b.mended) := by
  obtain ⟨ss, tail, span⟩ := b
  refine (stmts mends ss).bind fun _ => ?_
  cases tail with
  | none => exact refl _
  | some e => exact mends.expr e

theorem exprStep (e : Expr) : Carries (cx.exprStep e) (cx.exprStep e.mended) := by
  obtain ⟨kind, span⟩ := e
  refine locating ?_
  cases kind with
  | empty | source _ =>
    intro s a t run
    cases run
  | lit _ | ident _ | builtin _ | param _ | symbol _ | range _ _ => exact refl _
  | binary op lhs rhs => exact (mends.expr lhs).bind fun _ => (mends.expr rhs).before
  | unary op operand => exact (mends.expr operand).before
  | deriv var body =>
    change Carries (liftM (body.derivative var.name) >>= cx.expr)
      (liftM (body.mended.derivative var.name) >>= cx.expr)
    cases made : body.derivative var.name with
    | error f =>
      intro s a t run
      cases run
    | ok d =>
      rw [Expr.derivative_mended made]
      exact mends.expr d
  | call callee typeArgs args => exact callExpr mends callee typeArgs args span
  | methodCall receiver method args => exact (exprs mends (receiver :: args)).before
  | field base field => exact (mends.expr base).before
  | index base i => exact (mends.expr base).bind fun _ => (mends.expr i).before
  | structLit head fields => exact structLit mends head fields
  | array items => exact arrayLit mends items
  | block b => exact (mends.block b).nested
  | ifElse cond yes no => exact ifElse mends cond yes no
  | matchArms subject all => exact matchArms mends subject all span
  | forLoop label pat iter body => exact forLoop mends label pat iter body

end Carries

theorem Lowering.ofDepth_mends (target : Target) (n : Nat) : (ofDepth target n).Mends := by
  induction n with
  | zero =>
    refine ⟨fun e => ?_, fun b => ?_⟩
    all_goals
      intro s a t run
      cases run
  | succ n ih => exact ⟨Carries.exprStep ih, Carries.blockStep ih⟩

/-! ## Well-formed values -/

section

variable {K : Known} {s t : Emission} {v : Value}

/-- A constant fits its type, and what keeps nothing is not computed. -/
structure Value.WellFormed (v : Value) : Prop where
  conforms : ∀ c, v.payload = .const c → v.ty.Holds c
  known : v.ty.isVoid = true → ∃ c, v.payload = .const c

theorem Value.Over.wellFormed (valid : v.Over K) : v.WellFormed := by
  refine ⟨valid.const, fun void => ?_⟩
  cases payload : v.payload with
  | const c => exact ⟨c, rfl⟩
  | code c =>
    rw [valid.code c payload] at void
    cases void

namespace Lowering

/-- The value of an expression is well formed, and so is the program that lowering it leaves. -/
theorem wellFormed_of_expr {target : Target} {n : Nat} {e : Expr} (own : s.Over K)
    (run : (ofDepth target n).expr e s = .ok v t) :
    v.WellFormed ∧ ∃ L, K.Sub L ∧ v.ty.Over L ∧ t.Over L := by
  have mended := (ofDepth_mends target n).expr e s v t run
  have safe := (ofDepth_sound target n).expr K e.mended e.mended_clean s own
  rw [Ends, mended] at safe
  obtain ⟨L, sub, later, valid⟩ := safe
  exact ⟨valid.wellFormed, L, sub, valid.ty, later⟩

/-- `if true { [1, 2] } else …`, with a placeholder on the side that is not taken. -/
def pairOrNothing : Expr :=
  let pair : Expr := ⟨.array [⟨.lit (.int 1), default⟩, ⟨.lit (.int 2), default⟩], default⟩
  ⟨.ifElse ⟨.lit (.bool true), default⟩ ⟨[], some pair, default⟩ (some ⟨.empty, default⟩), default⟩

theorem wellFormed_pairOrNothing : ∃ p v t, Program.start = .ok p ∧
    (toTarget .glsl).expr pairOrNothing { program := p } = .ok v t ∧
    v.payload = .const (.aggregate [.scalar (.int 1), .scalar (.int 2)]) ∧ v.WellFormed := by
  obtain ⟨p, start⟩ := Program.exists_start
  obtain ⟨K, own⟩ := Program.start_over start
  have outset : Emission.Over K { program := p } := ⟨own, by constructor <;> simp [Level.Over]⟩
  have run : (toTarget .glsl).expr pairOrNothing { program := p } =
      .ok (.const _ (.array .i32 2)) _ := rfl
  exact ⟨p, _, _, start, run, rfl, (wellFormed_of_expr outset run).1⟩

end Lowering

end

end Ember
