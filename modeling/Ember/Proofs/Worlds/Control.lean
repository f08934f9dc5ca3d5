import Ember.Proofs.Worlds.Rules

/-!
# Control in its world

Conditions, matches and loops in their world, then statements and expressions.

What a side of a condition declares is in scope only there. So its value either needs none of it,
or is assigned inside to a variable that was declared before the condition.
-/

set_option autoImplicit false

namespace Ember

open Emit

namespace Lives

variable {c : Setting} {w : World} {cx : Lowering} {v : Value}

/-! ## Conditions and matches -/

theorem joinTy_grants {a b : Ty} (ha : a.Within w.known) (hb : b.Within w.known) (what : String) :
    Grants (Lowering.joinTy what a b) (Ty.Within w.known) := by
  unfold Lowering.joinTy
  split_ifs
  · exact ha
  · exact hb
  · trivial

/-- A side of a condition that assigns its value. -/
theorem assigning {ls : List Line} {x : String} {a : Code} (fits : Line.AllFit w ls)
    (coined : Ids.Coined x) (named : w.names x) (value : a.Loose (w.plus (Line.declared ls))) :
    Line.AllFit w (ls ++ [.assign (.name x) a]) := by
  have place : (Code.name x).Fits (w.plus (Line.declared ls)) := .var coined (Or.inl named)
  refine Line.allScoped_append.mpr ⟨fits, Line.allScoped_singleton.mpr ?_⟩
  rw [Line.Scoped]
  exact ⟨place.loose, value⟩

theorem branch_scoped {a : Code} {yes no : List Line} (cond : a.Loose w) (hy : Line.AllFit w yes)
    (hn : Line.AllFit w no) : Line.Scoped w.Uses w.names (.branch a yes no) := by
  rw [Line.Scoped]
  exact ⟨cond, hy, hn⟩

theorem joinSides {cond : Value} {yes no : Side} (test : cond.Fits w) (hy : fit w yes)
    (hn : fit w no) (target : Target) (what : String) :
    Lives c w (Lowering.joinSides target cond yes no what) fit := by
  obtain ⟨a, ys⟩ := yes
  obtain ⟨b, ns⟩ := no
  obtain ⟨yesLines, ha⟩ := hy
  obtain ⟨noLines, hb⟩ := hn
  -- the value of a side fits the world inside of it
  let Within (ls : List Line) (w : World) (u : Value) : Prop := u.Fits (w.plus (Line.declared ls))
  have tyA : a.ty.Within w.known := ha.ty
  have tyB : b.ty.Within w.known := hb.ty
  unfold Lowering.joinSides
  refine bind (lift (Q := fit) (joinTy_grants tyA tyB what)) fun w₁ sub₁ t within => ?_
  refine bind (lift (Q := Within ys) ((a.convert_grants (ha.mono (sub₁.plus _)) within target)))
    fun w₂ sub₂ a ha => ?_
  have within := Fitting.mono sub₂ within
  have sub := sub₁.trans sub₂
  refine bind (lift (Q := Within ns) ((b.convert_grants (hb.mono (sub.plus _)) within target)))
    fun w₃ sub₃ b hb => ?_
  have sub := sub.trans sub₃
  refine bind (toCode (test.mono sub) target) fun w₄ sub₄ e cond => ?_
  have sub := sub.trans sub₄
  have within := Fitting.mono (sub₃.trans sub₄) within
  have ha := ha.mono ((sub₃.trans sub₄).plus _)
  have hb := hb.mono (sub₄.plus _)
  have yesLines := yesLines.mono sub
  have noLines := noLines.mono sub
  split
  · split
    · exact bind (effect (branch_scoped cond.loose yesLines noLines)) fun _ _ _ _ => voidValue
    · exact voidValue
  · split
    · rename_i short
      simp only [Bool.and_eq_true, List.isEmpty_iff] at short
      simp only [short.1.1, short.1.2, Line.declared_nil, World.plus_nil] at ha hb
      refine bind (toCode ha target) fun w₅ sub₅ x hx => ?_
      refine bind (toCode (hb.mono sub₅) target) fun w₆ sub₆ y hy => ?_
      have sub := sub₅.trans sub₆
      refine pure (Value.fits_code (Fitting.mono sub within) (.paren ?_))
      exact (cond.mono sub).loose.choice (hx.mono sub₆).loose hy.loose
    · refine bind temp fun w₅ sub₅ name coined => ?_
      have stored := World.stored_within (Fitting.mono sub₅ within)
      refine bind (declareVar true coined stored (by simp)) fun w₆ sub₆ _ named => ?_
      have sub := sub₅.trans sub₆
      refine bind (lift (Q := fun w x => Code.Loose (w.plus (Line.declared ys)) x)
        ((a.toCode_grants (ha.mono (sub.plus _)) target).imp fun _ fits => fits.loose))
        fun w₇ sub₇ x hx => ?_
      have sub := sub.trans sub₇
      refine bind (lift (Q := fun w y => Code.Loose (w.plus (Line.declared ns)) y)
        ((b.toCode_grants (hb.mono (sub.plus _)) target).imp fun _ fits => fits.loose))
        fun w₈ sub₈ y hy => ?_
      have sub := sub.trans sub₈
      have named := (sub₇.trans sub₈).names _ named
      have yesSide := assigning (yesLines.mono sub) coined named (hx.mono (sub₈.plus _))
      have noSide := assigning (noLines.mono sub) coined named hy
      refine bind (effect (branch_scoped (cond.mono sub).loose yesSide noSide))
        fun w₉ sub₉ _ _ => ?_
      exact pure (Value.fits_code (Fitting.mono (sub.trans sub₉) within)
        (.var coined (sub₉.names _ named)))

theorem ifElse (abides : cx.Abides c) (cond : Expr) (yes : Block) (no : Option Expr) :
    Lives c w (cx.ifElse cond yes no) fit := by
  unfold Lowering.ifElse
  refine bind (abides.expr w cond) fun w₁ _ v fits => ?_
  refine bind (expect fits (t := .bool) trivial cx.target cond.span) fun w₂ _ u test => ?_
  split
  · exact nested (abides.block w₂ yes)
  · exact abides.expr w₂ _
  · exact voidValue
  · refine bind (abides.block w₂ yes).inBlock fun w₃ sub₃ a hy => ?_
    split
    · refine bind (abides.expr w₃ _).inBlock fun w₄ sub₄ b hn => ?_
      exact abides.join w₄ u a b _ (Value.Fits.mono (sub₃.trans sub₄) test) (Fitting.mono sub₄ hy) hn
    · refine bind voidValue fun w₄ sub₄ b hb => ?_
      rw [pure_bind]
      have hn : fit w₄ (b, ([] : List Line)) := by
        refine ⟨by simp [Line.AllFit, Line.AllScoped], ?_⟩
        simpa using hb
      exact abides.join w₄ u a (b, []) _ (Value.Fits.mono (sub₃.trans sub₄) test)
        (Fitting.mono sub₄ hy) hn

theorem arm (abides : cx.Abides c) (h : v.Fits w) (a : MatchArm) :
    Lives c w (cx.arm v a) fit :=
  bind (bindPattern h a.pat) fun w₁ _ _ _ => abides.expr w₁ a.body

theorem arms (abides : cx.Abides c) (h : v.Fits w) (span : Span) (as : List MatchArm) :
    Lives c w (cx.arms v span as) fit := by
  induction as generalizing w with
  | nil =>
    rw [Lowering.arms]
    exact locating (problem _)
  | cons a as ih =>
    rw [Lowering.arms]
    refine bind (locating (testPattern abides h a.pat)) fun w₁ sub₁ test tested => ?_
    have h := h.mono sub₁
    split
    · exact nested (arm abides h a)
    · exact ih h
    · refine bind (arm abides h a).inBlock fun w₂ sub₂ yes hy => ?_
      refine bind (ih (h.mono sub₂)).inBlock fun w₃ sub₃ no hn => ?_
      exact abides.join w₃ test yes no _ (Value.Fits.mono (sub₂.trans sub₃) tested)
        (Fitting.mono sub₃ hy) hn

theorem matchArms (abides : cx.Abides c) (subject : Expr) (as : List MatchArm) (span : Span) :
    Lives c w (cx.matchArms subject as span) fit := by
  unfold Lowering.matchArms
  refine bind (abides.expr w subject) fun w₁ _ v fits => ?_
  refine bind (lift (Q := fit) (Value.nonVoid_grants fits _)) fun w₂ _ v fits => ?_
  exact bind (cache fits cx.target) fun w₃ _ v fits => arms abides fits span as

/-! ## Loops -/

/-- What a loop counts with: the bounds do not use the variable, and what is taken may. -/
structure CounterFits (w : World) (k : Lowering.Counter) : Prop where
  coined : Ids.Coined k.var
  start : k.start.Loose w
  stop : k.stop.Loose w
  element : k.element.Fits (w.plus [k.var])

theorem loopLabel (label : Option Ident) : Lives c w (cx.loopLabel label) fun _ _ => True := by
  unfold Lowering.loopLabel
  split
  · exact pure trivial
  · split
    · exact bind (fresh _) fun _ _ _ _ => pure trivial
    · exact locating (throw _)

theorem counting {x : String} (coined : Ids.Coined x) : (Code.name x).Fits (w.plus [x]) :=
  .var coined (Or.inr (by simp))

theorem rangeCounter (abides : cx.Abides c) (pat : Pat) (start stop : Expr) :
    Lives c w (cx.rangeCounter pat start stop) CounterFits := by
  unfold Lowering.rangeCounter
  refine bind (abides.expr w start) fun w₁ _ v fits => ?_
  refine bind (expect fits (t := .i32) trivial cx.target start.span) fun w₂ _ a first => ?_
  refine bind (abides.expr w₂ stop) fun w₃ sub₃ u fits => ?_
  refine bind (expect fits (t := .i32) trivial cx.target stop.span) fun w₄ sub₄ b last => ?_
  refine bind (cache last cx.target) fun w₅ sub₅ b last => ?_
  refine bind (fresh _) fun w₆ sub₆ x coined => ?_
  have first : a.Fits w₆ := Value.Fits.mono (((sub₃.trans sub₄).trans sub₅).trans sub₆) first
  refine bind (toCode first cx.target) fun w₇ sub₇ p hp => ?_
  refine bind (toCode (Value.Fits.mono (sub₆.trans sub₇) last) cx.target) fun w₈ sub₈ q hq => ?_
  have element : Value.Fits (w₈.plus [x]) (.code (.name x) .i32) :=
    Value.fits_code trivial (counting coined)
  exact pure ⟨coined, (hp.mono sub₈).loose, hq.loose, element⟩

theorem arrayCounter (abides : cx.Abides c) (iter : Expr) :
    Lives c w (cx.arrayCounter iter) CounterFits := by
  unfold Lowering.arrayCounter
  refine bind (abides.expr w iter) fun w₁ _ v fits => ?_
  split
  · exact locating (problem _)
  · rename_i of len found
    refine bind (cachedCode fits cx.target) fun w₂ sub₂ a ha => ?_
    refine bind temp fun w₃ sub₃ x coined => ?_
    have within : of.Within w₃.known :=
      (fits.ty.array? found).mono (sub₂.trans sub₃).known
    have base : a.Fits (w₃.plus [x]) := (Code.Fits.mono sub₃ ha).mono (w₃.sub_plus [x])
    have element : Value.Fits (w₃.plus [x]) (.code (.index a (.name x)) of) :=
      Value.fits_code within (.index base (counting coined).loose)
    exact pure ⟨coined, (Code.Fits.lit _).loose, (Code.Fits.lit _).loose, element⟩

theorem counter (abides : cx.Abides c) (pat : Pat) (iter : Expr) :
    Lives c w (cx.counter pat iter) CounterFits := by
  unfold Lowering.counter
  split
  · exact rangeCounter abides pat _ _
  · exact locating (problem _)
  · exact arrayCounter abides iter

/-- A loop over what its pattern takes. -/
theorem takenLoop (abides : cx.Abides c) (label : Option Ident) (pat : Pat) (iter : Expr)
    (body : Block) : Lives c w (do
      let backend ← cx.loopLabel label
      let k ← cx.counter pat iter
      let (_, ls) ← Emit.inLoop ⟨label.map Ident.name, backend⟩ (Emit.inBlock do
        cx.bindPattern pat k.element
        Emit.discard cx.target (← cx.block body))
      Emit.line (.loop backend k.var k.start k.stop ls)
      Emit.voidValue) fit := by
  refine bind (loopLabel label) fun w₁ _ backend _ => ?_
  refine bind (counter abides pat iter) fun w₂ _ k counts => ?_
  have inner : Lives c (w₂.plus [k.var]) (do
      cx.bindPattern pat k.element
      Emit.discard cx.target (← cx.block body)) fit := by
    refine bind (bindPattern counts.element pat) fun w₃ _ _ _ => ?_
    exact bind (abides.block w₃ body) fun _ _ v fits => discard fits cx.target
  refine bind (inLoop (inner.inBlockWith [k.var])) fun w₃ sub₃ p fits => ?_
  have written : Line.Scoped w₃.Uses w₃.names (.loop backend k.var k.start k.stop p.2) := by
    rw [Line.Scoped]
    exact ⟨counts.coined, counts.start.mono sub₃, counts.stop.mono sub₃, fits.2.1⟩
  exact bind (effect written) fun _ _ _ _ => voidValue

theorem forLoop (abides : cx.Abides c) (label : Option Ident) (pat : Pat) (iter : Expr)
    (body : Block) : Lives c w (cx.forLoop label pat iter body) fit := by
  unfold Lowering.forLoop
  split
  · exact bind (locating (problem _)) fun w₁ _ _ (_ : True) => takenLoop abides label pat iter body
  · exact takenLoop abides label pat iter body

/-! ## Statements -/

theorem letBind (abides : cx.Abides c) (pat : Pat) (ty : Option TypeExpr) (value : Expr) :
    Lives c w (cx.letBind pat ty value) fit := by
  unfold Lowering.letBind
  refine bind (abides.expr w value) fun w₁ _ v fits => ?_
  have rest (w₂ : World) (u : Value) (fits : u.Fits w₂) : Lives c w₂ (do
      if !pat.isIrrefutable then Emit.locating pat.span (Emit.problem (.refutable "let"))
      cx.bindPattern pat u) fit := by
    split
    · exact bind (locating (problem _)) fun w₃ sub _ (_ : True) => bindPattern (fits.mono sub) pat
    · exact bindPattern fits pat
  cases ty with
  | some ty =>
    refine bind (type abides ty) fun w₂ sub t within => ?_
    exact bind (expect (Value.Fits.mono sub fits) within cx.target value.span) fun w₃ _ u fits =>
      rest w₃ u fits
  | none =>
    dsimp only
    rw [pure_bind]
    exact rest w₁ v fits

theorem assigned {place : Value} (abides : cx.Abides c) (hp : place.Fits w) (hv : v.Fits w)
    (op : AssignOp) (span : Span) : Lives c w (cx.assigned op place v span) fit := by
  unfold Lowering.assigned
  split
  · exact operator abides (by simpa using ⟨hp, hv⟩) _ _ span
  · exact pure hv

theorem assign (abides : cx.Abides c) (op : AssignOp) (target value : Expr) :
    Lives c w (cx.assign op target value) fit := by
  unfold Lowering.assign
  refine bind (abides.expr w target) fun w₁ _ place hp => ?_
  refine bind (abides.expr w₁ value) fun w₂ sub₂ v hv => ?_
  have hp : place.Fits w₂ := Value.Fits.mono sub₂ hp
  split
  · exact discard hv cx.target
  · split
    · exact locating (problem _)
    · refine bind (assigned abides hp hv op value.span) fun w₃ sub₃ u hu => ?_
      refine bind (expect hu (hp.mono sub₃).ty cx.target value.span) fun w₄ sub₄ u hu => ?_
      refine bind (toCode (hp.mono (sub₃.trans sub₄)) cx.target) fun w₅ sub₅ p fits => ?_
      refine bind (ownedCode (Value.Fits.mono sub₅ hu) cx.target) fun w₆ sub₆ a fits' => ?_
      refine effect ?_
      rw [Line.Scoped]
      exact ⟨(fits.mono sub₆).loose, fits'.loose⟩

theorem assert (abides : cx.Abides c) (cond : Expr) : Lives c w (cx.assert cond) fit := by
  unfold Lowering.assert
  refine bind (abides.expr w cond) fun w₁ _ v fits => ?_
  refine bind (expect fits (t := .bool) trivial cx.target cond.span) fun w₂ _ u test => ?_
  split
  · exact pure trivial
  · exact locating (problem _)
  · split
    · refine bind (toCode test cx.target) fun w₃ _ a fits => effect ?_
      rw [Line.Scoped]
      exact fits.loose
    · exact pure trivial

theorem jump (kind : JumpKind) (label : Option Ident) : Lives c w (cx.jump kind label) fit := by
  have jumping (w : World) (name : Option String) :
      Lives c w (Emit.line (.jump kind name)) fit := by
    refine effect ?_
    rw [Line.Scoped]
    trivial
  unfold Lowering.jump
  refine bind (look (Q := fun _ _ => True) fun _ _ => trivial) fun w₁ _ loops _ => ?_
  dsimp only
  split
  · exact problem _
  · exact problem _
  · exact jumping w₁ _
  · split
    · exact jumping w₁ _
    · exact throw _

theorem stmt (abides : cx.Abides c) (s : Stmt) : Lives c w (cx.stmt s) fit := by
  refine locating ?_
  cases s.kind with
  | empty => exact pure trivial
  | letBind pat ty value => exact letBind abides pat ty value
  | assign op target value => exact assign abides op target value
  | expr e => exact bind (abides.expr w e) fun _ _ v fits => discard fits cx.target
  | assert cond => exact assert abides cond
  | breakLoop label => exact jump _ label
  | continueLoop label => exact jump _ label

theorem stmts (abides : cx.Abides c) (ss : List Stmt) : Lives c w (cx.stmts ss) fit := by
  induction ss generalizing w with
  | nil =>
    rw [Lowering.stmts]
    exact pure trivial
  | cons s ss ih =>
    rw [Lowering.stmts]
    exact bind (stmt abides s) fun _ _ _ _ => ih

theorem blockStep (abides : cx.Abides c) (b : Block) : Lives c w (cx.blockStep b) fit := by
  refine bind (stmts abides b.stmts) fun w₁ _ _ _ => ?_
  split
  · exact abides.expr w₁ _
  · exact voidValue

/-! ## Expressions -/

theorem ident (abides : cx.Abides c) (name : String) (span : Span) :
    Lives c w (cx.ident name span) fit := by
  unfold Lowering.ident
  have env : Lives c w (Emit.look (·.program.env)) fun w e => ∀ v, e.const? name = some v →
      v.Fits w := look fun s inside v found => by
    have known : v.isConst = true ∧ v.ty.Within w.known := by
      rcases eq_some_of_orElse found with own | root
      · exact inside.tidy.own.consts _ (mem_of_lookup own)
      · exact inside.tidy.root.consts _ (mem_of_lookup root)
    exact Value.fits_of_isConst known.1 known.2
  refine bind env fun w₁ _ e consts => ?_
  refine bind (local? name) fun w₂ sub₂ found fits => ?_
  split
  · exact pure (fits _ rfl)
  · split
    · rename_i v found
      exact pure ((consts v found).mono sub₂)
    · split
      · exact call abides (by simp) (by simp) name span
      · split
        · exact problem _
        · exact problem _

theorem builtin (abides : cx.Abides c) (name : String) (span : Span) :
    Lives c w (cx.builtin name span) fit := by
  unfold Lowering.builtin
  have env : Lives c w (Emit.look (·.program.env)) fun w e => ∀ v,
      e.root.consts.lookup name = some v → v.Fits w := look fun s inside v found => by
    have known := inside.tidy.root.consts _ (mem_of_lookup found)
    exact Value.fits_of_isConst known.1 known.2
  refine bind env fun w₁ _ e consts => ?_
  split
  · rename_i v found
    exact pure (consts v found)
  · exact callBuiltin abides (by simp) (by simp) name span

/-- A value from outside is in scope everywhere. -/
theorem param (abides : cx.Abides c) (name : String) : Lives c w (cx.param name) fit := by
  unfold Lowering.param
  have env : Lives c w (Emit.look (·.program.env)) fun w e => ∀ t, e.param? name = some t →
      t.Within w.known ∧ Text.Plain name ∧ w.names (c.target.external name) :=
    look fun s inside t found => by
      obtain ⟨listed, plain, within⟩ : (name, t) ∈ s.program.params ∧ Text.Plain name ∧
          t.Within w.known := by
        rcases eq_some_of_orElse found with own | root
        · have member := mem_of_lookup own
          exact ⟨List.mem_append_left _ member, inside.tidy.own.params _ member⟩
        · have member := mem_of_lookup root
          exact ⟨List.mem_append_right _ member, inside.tidy.root.params _ member⟩
      have seen := inside.outside _ ((inside.externals _).mpr ⟨_, listed, rfl⟩)
      exact ⟨within, plain, seen⟩
  refine bind env fun w₁ _ e params => ?_
  split
  · exact problem _
  · rename_i t found
    obtain ⟨within, plain, seen⟩ := params t found
    refine pure (Value.fits_code within ?_)
    rw [← abides.target] at seen
    cases target : cx.target with
    | glsl =>
      rw [target] at seen
      exact .name (Text.Plain.append (Text.plain_of_all (by decide)) plain) fun _ => seen
    | js =>
      rw [target] at seen
      exact .name (Text.Plain.append (Text.plain_of_all (by decide)) plain) fun _ => seen

theorem exprs (abides : cx.Abides c) (es : List Expr) : Lives c w (cx.exprs es) fit := by
  induction es generalizing w with
  | nil =>
    rw [Lowering.exprs]
    exact pure (by simp [fit])
  | cons e es ih =>
    rw [Lowering.exprs]
    refine bind (abides.expr w e) fun w₁ _ v fits => ?_
    refine bind ih fun w₂ sub vs others => ?_
    exact pure (List.forall_mem_cons.mpr ⟨Value.Fits.mono sub fits, others⟩)

theorem callExpr (abides : cx.Abides c) (callee : Expr) (typeArgs : List TypeExpr)
    (args : List Expr) (span : Span) : Lives c w (cx.callExpr callee typeArgs args span) fit := by
  unfold Lowering.callExpr
  refine bind (exprs abides args) fun w₁ _ values fits => ?_
  refine bind (types abides typeArgs) fun w₂ sub₂ tys within => ?_
  have fits : ∀ v ∈ values, v.Fits w₂ := fun v member => Value.Fits.mono sub₂ (fits v member)
  split
  · refine bind (look (Q := fun _ _ => True) fun _ _ => trivial) fun w₃ sub₃ env _ => ?_
    refine bind (local? _) fun w₄ sub₄ found _ => ?_
    have sub := sub₃.trans sub₄
    have rest (w₅ : World) (more : w₄.Sub w₅) (name : String) :
        Lives c w₅ (cx.call name values tys span) fit :=
      call abides (fun v member => (fits v member).mono (sub.trans more))
        (fun t member => (within t member).mono (sub.trans more).known) name span
    split
    · exact bind (problem _) fun w₅ more _ (_ : True) => rest w₅ more _
    · exact rest w₄ (.refl w₄) _
  · exact callBuiltin abides fits within _ span
  · exact locating (problem _)

theorem exprStep (abides : cx.Abides c) (e : Expr) : Lives c w (cx.exprStep e) fit := by
  refine locating ?_
  cases e.kind with
  | empty => exact defect _
  | lit l => exact pure (literal l)
  | ident name => exact ident abides name _
  | builtin name => exact builtin abides name _
  | param name => exact param abides name
  | symbol name =>
    exact bind (symbolTy name) fun _ _ t within => pure (Value.fits_const within _)
  | binary op lhs rhs =>
    refine bind (abides.expr w lhs) fun w₁ _ a ha => ?_
    refine bind (abides.expr w₁ rhs) fun w₂ sub b (hb : b.Fits w₂) => ?_
    exact operator abides (by simpa using ⟨Value.Fits.mono sub ha, hb⟩) _ _ _
  | unary op operand =>
    refine bind (abides.expr w operand) fun w₁ _ a (ha : a.Fits w₁) => ?_
    exact operator abides (by simpa using ha) _ _ _
  | deriv var body =>
    exact bind (lift (Q := fun _ _ => True) (.of_forall fun _ => trivial)) fun w₁ _ d _ =>
      abides.expr w₁ d
  | range _ _ => exact problem _
  | call callee typeArgs args => exact callExpr abides callee typeArgs args _
  | methodCall receiver method args =>
    refine bind (exprs abides (receiver :: args)) fun w₁ _ vs fits => ?_
    exact call abides fits (by simp) _ _
  | field base name =>
    exact bind (abides.expr w base) fun w₁ _ v fits => fieldNamed fits name cx.target
  | index base i =>
    refine bind (abides.expr w base) fun w₁ _ b fits => ?_
    exact bind (abides.expr w₁ i) fun w₂ sub j fits' =>
      index (Value.Fits.mono sub fits) fits' cx.target
  | structLit head inits => exact structLit abides head inits
  | array items => exact arrayLit abides items
  | block b => exact nested (abides.block w b)
  | ifElse cond yes no => exact ifElse abides cond yes no
  | matchArms subject as => exact matchArms abides subject as _
  | forLoop label pat iter body => exact forLoop abides label pat iter body
  | source _ => exact problem _

end Lives
end Ember
