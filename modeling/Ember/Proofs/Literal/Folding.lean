import Ember.Proofs.Literal.Items
import Ember.Proofs.Literal.Rules

/-!
# Literal expressions come to the same constant for every target
-/

set_option autoImplicit false

namespace Ember

open Emit

/-- Lowering for two targets that agrees on what is literal, and writes nothing for it. -/
structure Lowering.Folds (cx cx' : Lowering) : Prop where
  sound : cx.Sound
  mends : cx.Mends
  expr : ∀ {K : Known} {bound : List String} {s : Emission} {e : Expr}, s.Binds K bound →
    e.Literal s.program.Means bound →
    Unison (cx.expr e) (cx'.expr e) s fun v t => t = s ∧ v.Fixed s.program.Basic
  block : ∀ {K : Known} {bound : List String} {s : Emission} {b : Block}, s.Binds K bound →
    b.Literal s.program.Means bound →
    Unison (cx.block b) (cx'.block b) s fun v t => s.Adds t ∧ v.Fixed s.program.Basic

namespace Unison

variable {K : Known} {bound : List String} {s : Emission} {cx cx' : Lowering}

theorem voidValue (ready : s.Binds K bound) :
    Unison Emit.voidValue Emit.voidValue s fun v t => t = s ∧ v.Fixed s.program.Basic := by
  refine bind (look _) ?_
  rintro _ _ ⟨rfl, rfl⟩
  obtain ⟨void, ty, known, _⟩ := ready.builtins.void
  refine pure ⟨rfl, Value.fixed_const _ ?_⟩
  rw [ty]
  exact known

/-- Converts a constant to a type of the program. -/
theorem expect (ready : s.Binds K bound) {v : Value} (h : v.Fixed s.program.Basic)
    (own : v.Over K) {goal : Ty} (valid : goal.Over K) (span : Span) :
    Unison (Emit.expect cx.target v goal span) (Emit.expect cx'.target v goal span) s
      fun w t => t = s ∧ w.Fixed s.program.Basic ∧ w.Of K goal := by
  have converted := h.convert cx.target cx'.target
    (ready.state.program.narrow ready.base h valid)
  refine locating (lift ⟨converted.1, fun w run => ?_⟩)
  have own := ready.state.program.closed.convert_gives own valid cx.target
  rw [run] at own
  exact ⟨converted.2 w run, own⟩

variable (folds : cx.Folds cx')

include folds

theorem expr (ready : s.Binds K bound) {e : Expr} (literal : e.Literal s.program.Means bound) :
    Unison (cx.expr e) (cx'.expr e) s
      fun v t => t = s ∧ v.Fixed s.program.Basic ∧ v.Over K := by
  have fixed := folds.expr ready literal
  refine ⟨fixed.1, fun v t run => ?_⟩
  obtain ⟨same, const⟩ := fixed.2 v t run
  obtain ⟨L, _, _, own⟩ := (folds.sound.expr K e.mended e.mended_clean s ready.state).ok
    (folds.mends.expr e s v t run)
  exact ⟨same, const, const.over ready.sub own⟩

theorem exprs (ready : s.Binds K bound) {es : List Expr}
    (literal : ∀ e ∈ es, e.Literal s.program.Means bound) :
    Unison (cx.exprs es) (cx'.exprs es) s
      fun vs t => t = s ∧ (∀ v ∈ vs, v.Fixed s.program.Basic) ∧ vs.length = es.length := by
  induction es with
  | nil => exact pure ⟨rfl, by simp, rfl⟩
  | cons e es ih =>
    rw [Lowering.exprs, Lowering.exprs]
    refine bind (folds.expr ready (literal e (by simp))) ?_
    rintro v _ ⟨rfl, hv⟩
    refine bind (ih fun e member => literal e (by simp [member])) ?_
    rintro vs _ ⟨rfl, hvs, length⟩
    exact pure ⟨rfl, by simpa [hv] using hvs, by simp [length]⟩

/-! ## Types -/

theorem arrayLength (ready : s.Binds K bound) {len : Expr}
    (literal : len.Literal s.program.Means bound) :
    Unison (cx.arrayLength len) (cx'.arrayLength len) s fun _ t => t = s := by
  have value : Unison (Emit.inBlock (cx.expr len)) (Emit.inBlock (cx'.expr len)) s
      fun p t => t = s ∧ True ∧ p.2 = [] := by
    refine inBlock (P := fun _ => True) ((folds.expr ready.entered literal).mono ?_)
    rintro v _ ⟨rfl, _⟩
    exact ⟨⟨_, rfl⟩, trivial⟩
  unfold Lowering.arrayLength
  refine bind value ?_
  rintro ⟨v, _⟩ _ ⟨rfl, _, rfl⟩
  refine locating ?_
  split
  · split
    · exact pure rfl
    · exact problem _
  · split
    · exact problem _
    · exact problem _

omit folds

theorem namedTy (name : String) :
    Unison (Lowering.namedTy name) (Lowering.namedTy name) s fun _ t => t = s := by
  unfold Lowering.namedTy
  refine bind (look _) ?_
  rintro _ _ ⟨rfl, rfl⟩
  split
  · exact pure rfl
  · refine bind (look _) ?_
    rintro _ _ ⟨rfl, rfl⟩
    split
    · exact pure rfl
    · exact problem _

theorem memberStructs (ty : Ty) (span : Span) :
    Unison (Lowering.memberStructs ty span) (Lowering.memberStructs ty span) s
      fun _ t => t = s := by
  unfold Lowering.memberStructs
  split
  · exact pure rfl
  · exact pure rfl
  · exact locating (problem _)
  · exact locating (problem _)

mutual

theorem type {s : Emission} (folds : cx.Folds cx') (ready : s.Binds K bound) : ∀ {t : TypeExpr},
    t.Literal s.program.Means bound → Unison (cx.type t) (cx'.type t) s fun _ u => u = s
  | ⟨.empty, _⟩, literal => by cases literal
  | ⟨.named name args, span⟩, _ => by
    rw [Lowering.type, Lowering.type]
    refine locating ?_
    split
    · exact namedTy _
    · exact problem _
  | ⟨.array of len, span⟩, literal => by
    cases literal with
    | array element length =>
      rw [Lowering.type, Lowering.type]
      refine locating (bind (type folds ready element) ?_)
      rintro ty _ rfl
      refine bind (arrayLength folds ready length) ?_
      rintro n _ rfl
      exact (lift (P := fun _ => True) ⟨rfl, fun _ _ => trivial⟩).mono fun _ _ => And.left
  | ⟨.alt members, span⟩, literal => by
    cases literal with
    | alt each =>
      rw [Lowering.type, Lowering.type]
      refine locating (bind (memberTypes folds ready each) ?_)
      rintro ss _ rfl
      exact (lift (P := fun _ => True) ⟨rfl, fun _ _ => trivial⟩).mono fun _ _ => And.left

theorem memberTypes {s : Emission} (folds : cx.Folds cx') (ready : s.Binds K bound) :
    ∀ {ts : List TypeExpr}, (∀ t ∈ ts, t.Literal s.program.Means bound) →
    Unison (cx.memberTypes ts) (cx'.memberTypes ts) s fun _ u => u = s
  | [], _ => by
    rw [Lowering.memberTypes, Lowering.memberTypes]
    exact pure rfl
  | t :: ts, literal => by
    rw [Lowering.memberTypes_cons, Lowering.memberTypes_cons]
    refine bind (type folds ready (literal t (by simp))) ?_
    rintro ty _ rfl
    refine bind (memberStructs ty t.span) ?_
    rintro ss _ rfl
    refine bind (memberTypes folds ready fun t member => literal t (by simp [member])) ?_
    rintro ss' _ rfl
    exact pure rfl

end

include folds

theorem types (ready : s.Binds K bound) {ts : List TypeExpr}
    (literal : ∀ t ∈ ts, t.Literal s.program.Means bound) :
    Unison (cx.types ts) (cx'.types ts) s fun _ u => u = s := by
  unfold Lowering.types
  induction ts with
  | nil => exact pure rfl
  | cons t ts ih =>
    rw [List.mapM_cons, List.mapM_cons]
    refine bind (type folds ready (literal t (by simp))) ?_
    rintro _ _ rfl
    refine bind (ih fun t member => literal t (by simp [member])) ?_
    rintro _ _ rfl
    exact pure rfl

/-! ## Arrays -/

omit folds

theorem nonVoid {v : Value} (what : String) :
    Unison (liftM (v.nonVoid what)) (liftM (v.nonVoid what)) s
      fun w t => t = s ∧ w = v ∧ v.ty.isVoid = false := by
  refine lift ?_
  unfold Value.nonVoid
  cases void : v.ty.isVoid with
  | true => exact .error _
  | false => exact .ok ⟨rfl, rfl⟩

theorem mkArray_fixed {B : Known} {of : Ty} (valid : of.Over B) (len : Nat) :
    Paired (Ty.mkArray of len) (Ty.mkArray of len) fun t => t.Over B := by
  refine ⟨rfl, fun t run => ?_⟩
  have gives := Ty.mkArray_gives valid len
  rw [run] at gives
  exact gives.2

theorem elementTy_fixed {B : Known} {of : Ty} (valid : of.Over B) (kept : of.isVoid = false)
    {vs : List Value} (h : ∀ v ∈ vs, v.Fixed B ∧ v.ty.isVoid = false) :
    Paired (Lowering.elementTy of vs) (Lowering.elementTy of vs)
      fun t => t.Over B ∧ t.isVoid = false := by
  induction vs generalizing of with
  | nil => exact .ok ⟨valid, kept⟩
  | cons v vs ih =>
    have rest := fun u (member : u ∈ vs) => h u (by simp [member])
    have first := h v (by simp)
    rw [Lowering.elementTy]
    split
    · exact ih valid kept rest
    · split
      · exact ih first.1.ty first.2 rest
      · exact .error _

theorem arrayFrom (ready : s.Binds K bound) {vs : List Value}
    (h : ∀ v ∈ vs, v.Fixed s.program.Basic ∧ v.ty.isVoid = false) :
    Unison (cx.arrayFrom vs) (cx'.arrayFrom vs) s
      fun v t => t = s ∧ v.Fixed s.program.Basic := by
  cases vs with
  | nil => exact problem _
  | cons first rest =>
    have head := h first (by simp)
    unfold Lowering.arrayFrom
    refine bind (lift (elementTy_fixed head.1.ty head.2 fun v member => h v (by simp [member]))) ?_
    rintro of _ ⟨rfl, valid, kept⟩
    refine bind (lift (mkArray_fixed valid (first :: rest).length)) ?_
    rintro ty _ ⟨rfl, arrayValid⟩
    refine bind (Echoes.mapM (fun v member => Echoes.lift
      ((h v member).1.convert_plain cx.target cx'.target ready.plain valid)) _ ready.builtins) ?_
    rintro items _ ⟨rfl, fixed⟩
    obtain ⟨cs, consts⟩ := Value.Fixed.consts fixed
    unfold Lowering.arrayValue
    rw [consts]
    exact pure ⟨rfl, Value.fixed_const _ arrayValid⟩

include folds

theorem elements (ready : s.Binds K bound) {es : List Expr}
    (literal : ∀ e ∈ es, e.Literal s.program.Means bound) :
    Unison (cx.elements es) (cx'.elements es) s
      fun vs t => t = s ∧ ∀ v ∈ vs, v.Fixed s.program.Basic ∧ v.ty.isVoid = false := by
  induction es with
  | nil => exact pure ⟨rfl, by simp⟩
  | cons e es ih =>
    rw [Lowering.elements, Lowering.elements]
    refine bind (folds.expr ready (literal e (by simp))) ?_
    rintro v _ ⟨rfl, hv⟩
    refine bind (locating (nonVoid _)) ?_
    rintro _ _ ⟨rfl, rfl, kept⟩
    refine bind (ih fun e member => literal e (by simp [member])) ?_
    rintro vs _ ⟨rfl, hvs⟩
    refine pure ⟨rfl, ?_⟩
    rw [List.forall_mem_cons]
    exact ⟨⟨hv, kept⟩, hvs⟩

/-! ## Conditions and matches -/

theorem nestedBlock (ready : s.Binds K bound) {b : Block}
    (literal : b.Literal s.program.Means bound) :
    Unison (Emit.nested (cx.block b)) (Emit.nested (cx'.block b)) s
      fun v t => t = s ∧ v.Fixed s.program.Basic :=
  nested (folds.block ready.entered literal)

/-- A condition that is literal is known, so one side is taken. -/
theorem ifElse (ready : s.Binds K bound) {cond : Expr} {yes : Block} {no : Option Expr}
    (test : cond.Literal s.program.Means bound) (whenTrue : yes.Literal s.program.Means bound)
    (whenFalse : ∀ e ∈ no, e.Literal s.program.Means bound) :
    Unison (cx.ifElse cond yes no) (cx'.ifElse cond yes no) s
      fun v t => t = s ∧ v.Fixed s.program.Basic := by
  unfold Lowering.ifElse
  refine bind (expr folds ready test) ?_
  rintro c _ ⟨rfl, hc, own⟩
  have truthValue : Ty.bool.Over K := trivial
  refine bind (expect ready hc own truthValue cond.span) ?_
  rintro c _ ⟨rfl, hc, own⟩
  obtain ⟨x, truth⟩ := hc.truth? own
  rw [truth]
  cases x with
  | true => exact nestedBlock folds ready whenTrue
  | false =>
    cases no with
    | none => exact voidValue ready
    | some other => exact folds.expr ready (whenFalse other rfl)

theorem arm (ready : s.Binds K bound) {subject : Value} (h : subject.Fixed s.program.Basic)
    (own : subject.Over K) {a : MatchArm} (pattern : a.pat.Literal s.program.Means)
    (body : a.body.Literal s.program.Means (a.pat.names ++ bound)) :
    Unison (cx.arm subject a) (cx'.arm subject a) s
      fun v t => s.Adds t ∧ v.Fixed s.program.Basic := by
  unfold Lowering.arm
  refine bind (bindPattern ready pattern h own) ?_
  rintro _ _ ⟨⟨locals, rfl⟩, ready'⟩
  refine (folds.expr ready' body).mono ?_
  rintro v _ ⟨rfl, hv⟩
  exact ⟨⟨locals, rfl⟩, hv⟩

theorem arms (ready : s.Binds K bound) {subject : Value} (h : subject.Fixed s.program.Basic)
    (own : subject.Over K) (span : Span) {as : List MatchArm}
    (patterns : ∀ a ∈ as, a.pat.Literal s.program.Means)
    (bodies : ∀ a ∈ as, a.body.Literal s.program.Means (a.pat.names ++ bound)) :
    Unison (cx.arms subject span as) (cx'.arms subject span as) s
      fun v t => t = s ∧ v.Fixed s.program.Basic := by
  induction as with
  | nil =>
    rw [Lowering.arms, Lowering.arms]
    exact locating (problem _)
  | cons a as ih =>
    rw [Lowering.arms, Lowering.arms]
    refine bind (locating (testPattern ready (patterns a (by simp)) h own)) ?_
    rintro _ _ ⟨rfl, x, rfl⟩
    cases x with
    | true =>
      exact nested (arm folds ready.entered h own (patterns a (by simp)) (bodies a (by simp)))
    | false =>
      exact ih (fun b member => patterns b (by simp [member])) fun b member =>
        bodies b (by simp [member])

theorem matchArms (ready : s.Binds K bound) {subject : Expr} {as : List MatchArm} (span : Span)
    (literal : subject.Literal s.program.Means bound)
    (patterns : ∀ a ∈ as, a.pat.Literal s.program.Means)
    (bodies : ∀ a ∈ as, a.body.Literal s.program.Means (a.pat.names ++ bound)) :
    Unison (cx.matchArms subject as span) (cx'.matchArms subject as span) s
      fun v t => t = s ∧ v.Fixed s.program.Basic := by
  unfold Lowering.matchArms
  refine bind (expr folds ready literal) ?_
  rintro v _ ⟨rfl, hv, own⟩
  refine bind (nonVoid _) ?_
  rintro _ _ ⟨rfl, rfl, _⟩
  rw [cache_fixed _ hv, cache_fixed _ hv, pure_bind, pure_bind]
  exact arms folds ready hv own span patterns bodies

/-! ## Blocks -/

/-- A type that a binding asks for is one of the program. -/
theorem typeOver (ready : s.Binds K bound) {t : TypeExpr}
    (literal : t.Literal s.program.Means bound) :
    Unison (cx.type t) (cx'.type t) s
      fun ty u => u = s ∧ ∃ L, K.Sub L ∧ s.Over L ∧ ty.Over L := by
  have typed := type folds ready literal
  refine ⟨typed.1, fun ty u run => ?_⟩
  obtain ⟨L, sub, state, valid⟩ :=
    (Safe.type folds.sound t.mended_clean s ready.state).ok (Carries.type folds.mends t s ty u run)
  cases typed.2 ty u run
  exact ⟨rfl, L, sub, state, valid⟩

theorem letBind (ready : s.Binds K bound) {pat : Pat} {ty : Option TypeExpr} {value : Expr}
    (pattern : pat.Literal s.program.Means)
    (annotated : ∀ t ∈ ty, t.Literal s.program.Means bound)
    (literal : value.Literal s.program.Means bound) :
    Unison (cx.letBind pat ty value) (cx'.letBind pat ty value) s
      fun _ t => s.Adds t ∧ t.Binds K (pat.names ++ bound) := by
  have rest {v : Value} (h : v.Fixed s.program.Basic) (own : v.Over K) :
      Unison (do
        if !pat.isIrrefutable then Emit.locating pat.span (Emit.problem (.refutable "let"))
        cx.bindPattern pat v) (do
        if !pat.isIrrefutable then Emit.locating pat.span (Emit.problem (.refutable "let"))
        cx'.bindPattern pat v) s fun _ t => s.Adds t ∧ t.Binds K (pat.names ++ bound) := by
    cases pat.isIrrefutable with
    | true => exact bindPattern ready pattern h own
    | false => exact bind (Q := fun _ _ => False) (locating (problem _)) (by simp)
  unfold Lowering.letBind
  refine bind (expr folds ready literal) ?_
  rintro v _ ⟨rfl, hv, own⟩
  cases ty with
  | none => exact rest hv own
  | some t =>
    refine bind (typeOver folds ready (annotated t rfl)) ?_
    rintro goal _ ⟨rfl, L, sub, state, valid⟩
    refine bind (expect ⟨state, ready.base, ready.bound⟩ hv (own.mono sub) valid value.span) ?_
    rintro w _ ⟨rfl, hw, typed⟩
    exact rest hw (hw.over ready.sub typed.1)

theorem blockStep (ready : s.Binds K bound) {b : Block}
    (literal : b.Literal s.program.Means bound) :
    Unison (cx.blockStep b) (cx'.blockStep b) s
      fun v t => s.Adds t ∧ v.Fixed s.program.Basic := by
  obtain ⟨ss, tail, span⟩ := b
  induction ss generalizing s bound with
  | nil =>
    cases literal with
    | tail value =>
      have last : Unison (cx.blockStep ⟨[], tail, span⟩) (cx'.blockStep ⟨[], tail, span⟩) s
          fun v t => t = s ∧ v.Fixed s.program.Basic := by
        cases tail with
        | none => exact voidValue ready
        | some e => exact folds.expr ready (value e rfl)
      refine last.mono ?_
      rintro v _ ⟨rfl, hv⟩
      exact ⟨⟨_, rfl⟩, hv⟩
  | cons st ss ih =>
    cases literal with
    | letBind pattern annotated value rest =>
      unfold Lowering.blockStep
      dsimp only
      rw [Lowering.stmts, Lowering.stmts, bind_assoc, bind_assoc]
      refine bind (locating (letBind folds ready pattern annotated value)) ?_
      rintro _ _ ⟨⟨locals, rfl⟩, ready'⟩
      refine (ih ready' rest).mono ?_
      rintro v t ⟨added, hv⟩
      exact ⟨Emission.Adds.trans ⟨locals, rfl⟩ added, hv⟩

/-! ## Expressions -/

omit folds in
theorem ident (ready : s.Binds K bound) {name : String} (member : name ∈ bound) (span : Span) :
    Unison (cx.ident name span) (cx'.ident name span) s
      fun v t => t = s ∧ v.Fixed s.program.Basic := by
  obtain ⟨v, found, fixed⟩ := ready.bound name member
  unfold Lowering.ident
  refine bind (look _) ?_
  rintro _ _ ⟨rfl, rfl⟩
  refine bind (look _) ?_
  rintro _ _ ⟨rfl, rfl⟩
  rw [found]
  exact pure ⟨rfl, fixed⟩

theorem callNamed (ready : s.Binds K bound) {name : String} {typeArgs : List TypeExpr}
    {args : List Expr} (means : s.program.Means name args.length)
    (types' : ∀ t ∈ typeArgs, t.Literal s.program.Means bound)
    (literal : ∀ a ∈ args, a.Literal s.program.Means bound) (span' span : Span) :
    Unison (cx.callExpr ⟨.ident name, span'⟩ typeArgs args span)
      (cx'.callExpr ⟨.ident name, span'⟩ typeArgs args span) s
      fun v t => t = s ∧ v.Fixed s.program.Basic := by
  unfold Lowering.callExpr
  refine bind (exprs folds ready literal) ?_
  rintro vs _ ⟨rfl, hvs, length⟩
  refine bind (types folds ready types') ?_
  rintro tys _ rfl
  dsimp only
  refine bind (look _) ?_
  rintro _ _ ⟨rfl, rfl⟩
  refine bind (look _) ?_
  rintro _ _ ⟨rfl, rfl⟩
  split
  · exact bind (Q := fun _ _ => False) (problem _) (by simp)
  · exact call ready (length ▸ means) hvs tys span

theorem callOfPrelude (ready : s.Binds K bound) {name : String} {typeArgs : List TypeExpr}
    {args : List Expr} (types' : ∀ t ∈ typeArgs, t.Literal s.program.Means bound)
    (literal : ∀ a ∈ args, a.Literal s.program.Means bound) (span' span : Span) :
    Unison (cx.callExpr ⟨.builtin name, span'⟩ typeArgs args span)
      (cx'.callExpr ⟨.builtin name, span'⟩ typeArgs args span) s
      fun v t => t = s ∧ v.Fixed s.program.Basic := by
  unfold Lowering.callExpr
  refine bind (exprs folds ready literal) ?_
  rintro vs _ ⟨rfl, hvs, _⟩
  refine bind (types folds ready types') ?_
  rintro tys _ rfl
  exact callBuiltin ready name hvs tys span

theorem exprStep (ready : s.Binds K bound) {e : Expr} (literal : e.Literal s.program.Means bound) :
    Unison (cx.exprStep e) (cx'.exprStep e) s
      fun v t => t = s ∧ v.Fixed s.program.Basic := by
  unfold Lowering.exprStep
  refine locating ?_
  cases literal with
  | lit =>
    rename_i l span
    refine pure ⟨rfl, ?_⟩
    cases l <;> exact Value.fixed_const _ trivial
  | ident member => exact ident ready member _
  | binary means left right =>
    refine bind (folds.expr ready left) ?_
    rintro a _ ⟨rfl, ha⟩
    refine bind (folds.expr ready right) ?_
    rintro b _ ⟨rfl, hb⟩
    exact operator ready means (fixed_pair ha hb) _
  | unary means operand =>
    refine bind (folds.expr ready operand) ?_
    rintro a _ ⟨rfl, ha⟩
    exact operator ready means (by simpa using ha) _
  | call means types' args => exact callNamed folds ready means types' args _ _
  | builtin types' args => exact callOfPrelude folds ready types' args _ _
  | methodCall means args =>
    refine bind (exprs folds ready args) ?_
    rintro vs _ ⟨rfl, hvs, length⟩
    exact call ready (length ▸ means) hvs [] _
  | field base =>
    refine bind (folds.expr ready base) ?_
    rintro v _ ⟨rfl, hv⟩
    exact Echoes.fieldNamed _ _ ready.plain hv _ _ ready.builtins
  | index base place =>
    refine bind (expr folds ready base) ?_
    rintro v _ ⟨rfl, hv, own⟩
    refine bind (expr folds ready place) ?_
    rintro i _ ⟨rfl, hi, ownIndex⟩
    exact Echoes.index _ _ ready.state.program.closed hv own hi ownIndex _ ready.builtins
  | array items =>
    refine bind (elements folds ready items) ?_
    rintro vs _ ⟨rfl, hvs⟩
    exact arrayFrom ready hvs
  | block body => exact nestedBlock folds ready body
  | ifElse test yes no => exact ifElse folds ready test yes no
  | matchArms subject patterns bodies => exact matchArms folds ready _ subject patterns bodies

end Unison

theorem Lowering.ofDepth_folds (target target' : Target) (n : Nat) :
    (ofDepth target n).Folds (ofDepth target' n) := by
  induction n with
  | zero =>
    exact ⟨ofDepth_sound target 0, ofDepth_mends target 0,
      fun _ _ => .locating (.throw _), fun _ _ => .locating (.throw _)⟩
  | succ n ih =>
    exact ⟨ofDepth_sound target (n + 1), ofDepth_mends target (n + 1),
      fun ready literal => Unison.exprStep ih ready literal,
      fun ready literal => Unison.blockStep ih ready literal⟩

/-! ## Constants for both targets -/

/-- For both targets, a literal expression comes to the same constant and leaves everything as it
was, or fails in the same way. -/
theorem Lowering.constant_of_literal {K : Known} {s : Emission} {e : Expr} (own : s.Over K)
    (base : s.program.OnPrelude) (literal : e.Literal s.program.Means []) (n : Nat) :
    (∃ f t, (ofDepth .js n).expr e s = .error f t ∧ (ofDepth .glsl n).expr e s = .error f t) ∨
    ∃ v c, v.payload = .const c ∧ (ofDepth .js n).expr e s = .ok v s ∧
      (ofDepth .glsl n).expr e s = .ok v s := by
  have ready : s.Binds K [] := ⟨own, base, by simp⟩
  obtain ⟨same, after⟩ := (ofDepth_folds .js .glsl n).expr ready literal
  cases run : (ofDepth .js n).expr e s with
  | error f t => exact .inl ⟨f, t, rfl, same.symm.trans run⟩
  | ok v t =>
    obtain ⟨rfl, fixed⟩ := after v t run
    obtain ⟨c, payload⟩ := fixed.const
    exact .inr ⟨v, c, payload, rfl, same.symm.trans run⟩

def ownDot : String := "struct P { x: f32 } fn dot(p: P) -> f32 { p.x }"

def ownDotRequests : List (Item × List Target) :=
  (Script.parse 0 ownDot).result.items.map fun i => (i, [.js])

/-- `{ let v = [3, 4]; match v[1] { 4 => dot(vec2(3, 4), vec2(1, 2)), _ => 0.0 } }` -/
def chosenDot : Expr :=
  let of (kind : ExprKind) : Expr := ⟨kind, default⟩
  let int (n : Int32) : Expr := of (.lit (.int n))
  let call (name : String) (args : List Expr) : Expr := of (.call (of (.ident name)) [] args)
  let dot := call "dot" [call "vec2" [int 3, int 4], call "vec2" [int 1, int 2]]
  of (.block ⟨[⟨.letBind ⟨.bind "v" false, default⟩ none (of (.array [int 3, int 4])), default⟩],
    some (of (.matchArms (of (.index (of (.ident "v")) (int 1)))
      [⟨⟨.lit (.int 4), default⟩, dot, default⟩,
       ⟨⟨.ignore, default⟩, of (.lit (.float 0)), default⟩])), default⟩)

theorem chosenDot_literal {means : String → Nat → Prop} (eq : means "_eq" 2) (dot : means "dot" 2)
    (vec2 : means "vec2" 2) : chosenDot.Literal means [] := by
  have vector (bound : List String) (m n : Int32) : Expr.Literal means bound
      ⟨.call ⟨.ident "vec2", default⟩ [] [⟨.lit (.int m), default⟩, ⟨.lit (.int n), default⟩],
        default⟩ :=
    .call vec2 (by simp) (by simpa using ⟨.lit, .lit⟩)
  refine .block (.letBind .bind (by simp) (.array (by simpa using ⟨.lit, .lit⟩)) (.tail ?_))
  rintro _ ⟨⟩
  refine .matchArms (.index (.ident (by simp [Pat.names])) .lit) ?_ ?_
  · simpa using ⟨.lit eq, .ignore⟩
  · simpa using ⟨.call dot (by simp) (by simpa using ⟨vector _ 3 4, vector _ 1 2⟩), .lit⟩

def chosenDotRuns (p : Program) : Bool :=
  match (Lowering.toTarget .js).expr chosenDot { program := p } with
  | .ok v _ => v.ty.scalarKind? == some .float
  | .error _ _ => false

def noPairs (p : Program) : Bool := p.env.own.functions.all fun f => f.2.params.length != 2

theorem ownDot_runs : Program.start.toOption.any (fun p =>
    (p.items ownDotRequests).1.toBool && noPairs (p.items ownDotRequests).2 &&
      chosenDotRuns (p.items ownDotRequests).2) = true := by decide +kernel

theorem ownDot_quiet : (Script.parse 0 ownDot).issues = [] := by decide +kernel

theorem ownDot_resolved : ∀ i ∈ (Script.parse 0 ownDot).result.items, i.isUse = false := by
  decide +kernel

/-- The `dot` of the prelude is meant, and its value is known for both targets. -/
theorem Lowering.constant_of_chosenDot : ∃ p v c, Program.start = .ok p ∧
    v.payload = .const c ∧ v.ty.scalarKind? = some .float ∧
    ∀ target, (toTarget target).expr chosenDot { program := (p.items ownDotRequests).2 } =
      .ok v { program := (p.items ownDotRequests).2 } := by
  have runs := ownDot_runs
  cases start : Program.start with
  | error f => simp [start, Except.toOption] at runs
  | ok p =>
    simp only [start, Except.toOption, Option.any_some, Bool.and_eq_true] at runs
    obtain ⟨⟨accepted, pairs⟩, runs⟩ := runs
    have accepted : (p.items ownDotRequests).1 = .ok () := by
      cases ended : (p.items ownDotRequests).1 with
      | ok u => rfl
      | error f => simp [ended, Except.toBool] at accepted
    have clean : ∀ r ∈ ownDotRequests, r.1.Clean ∧ r.1.isUse = false := by
      intro r member
      obtain ⟨i, listed, rfl⟩ := List.mem_map.mp member
      exact ⟨Script.parse_clean ownDot_quiet i listed, ownDot_resolved i listed⟩
    obtain ⟨K, valid⟩ := Program.start_over start
    obtain ⟨L, own, _⟩ := valid.items clean
    have base := (Program.start_onPrelude start).items valid clean accepted
    have means (name : String) : (p.items ownDotRequests).2.Means name 2 := by
      refine Program.means_of_arity fun f member _ => ?_
      simpa using List.all_eq_true.mp pairs f member
    have state : Emission.Over L { program := (p.items ownDotRequests).2 } :=
      ⟨own, by simp [Level.Over], by simp, by simp⟩
    rcases constant_of_literal state base (chosenDot_literal (means _) (means _) (means _))
      depthLimit with ⟨f, t, failed, _⟩ | ⟨v, c, const, js, glsl⟩
    · simp [chosenDotRuns, toTarget, failed] at runs
    · simp only [chosenDotRuns, toTarget, js, beq_iff_eq] at runs
      refine ⟨p, v, c, rfl, const, runs, fun target => ?_⟩
      cases target with
      | js => exact js
      | glsl => exact glsl

end Ember
