import Ember.Proofs.Steady
import Ember.Proofs.Worlds.Control

/-!
# Functions in their world

The body of a function sees the values from outside and its parameters, and nothing of the place
that it is called from. A call is computed, and then the result is a constant, or it is written, and
then the function has to be one that may be called.

How far functions are written when others call them is left to the setting: `Setting.Writes` lists
what it has to keep when a function is listed, and when its code is there.
-/

set_option autoImplicit false

namespace Ember

open Emit

structure FnCode.Scoped (calls : String → Prop) (structs : Nat → Prop) (outside : Names)
    (code : FnCode) : Prop where
  name : Ids.Coined code.name
  params : ∀ q ∈ code.params, Ids.Coined q.1 ∧ ∀ id ∈ q.2.ids, structs id
  result : ∀ id ∈ code.result.ids, structs id
  body : Line.AllScoped (fun names u => u.Ok calls structs names)
    (outside.plus (code.params.map Prod.fst)) code.body

theorem FnCode.Scoped.mono {calls calls' : String → Prop} {structs structs' : Nat → Prop}
    {outside outside' : Names} {code : FnCode} (h : code.Scoped calls structs outside)
    (callsSub : ∀ f, calls f → calls' f) (structsSub : ∀ id, structs id → structs' id)
    (outsideSub : ∀ x, outside x → outside' x) : code.Scoped calls' structs' outside' where
  name := h.name
  params q member :=
    (h.params q member).imp_right fun ids id inside => structsSub id (ids id inside)
  result id inside := structsSub id (h.result id inside)
  body := Line.AllScoped.mono (fun _ _ _ sub ok => ok.mono callsSub structsSub sub) _
    (fun _ => Names.plus_mono outsideSub _) h.body

theorem Line.allScoped_foreign {ok : Names → Use → Prop} {names : Names} (texts : List String) :
    AllScoped ok names (texts.map .foreign) := by
  induction texts generalizing names with
  | nil => simp [AllScoped]
  | cons t ts ih =>
    rw [List.map_cons, AllScoped]
    exact ⟨by simp [Scoped], ih⟩

theorem UserFn.foreignLines_fit {ok : Names → Line.Use → Prop} {names : Names} (text : String) :
    Line.AllScoped ok names (foreignLines text) := by
  unfold foreignLines
  split
  · simp [Line.AllScoped]
  · have mapped : (newlinePieces (Text.trim text.toList)).map (fun l =>
        Line.foreign (String.ofList (stripReturn l))) =
        ((newlinePieces (Text.trim text.toList)).map fun l =>
          String.ofList (stripReturn l)).map Line.foreign := by simp
    rw [mapped]
    exact Line.allScoped_foreign _

/-! ## Keeping to a setting -/

def Setting.keeping (c : Setting) (H : Program → Prop)
    (adds : ∀ {p q : Program}, H p → p.Adds q → H q) : Setting :=
  { c with Holds := H, holds_adds := fun h holds => adds holds h }

namespace Program

def Sees (p : Program) (target : Target) : Names := fun x => ∃ q ∈ p.params, x = target.external q.1

def listing (p : Program) (key : InstanceKey) (inst : Instance) : Program :=
  { p with instances := (key, inst) :: p.instances }

def writing (p : Program) (target : Target) (code : FnCode) : Program :=
  p.modifyOutput target fun o => { o with functions := o.functions ++ [code] }

/-- The name that a function gets: its own if it is no template, or else a new one. -/
inductive Names (own : Option String) (types : List Ty) (p : Program) : String → Program → Prop
  | own {name : String} : own = some name → types = [] → Names own types p name p
  | fresh (stem : String) :
    Names own types p (p.ids.fresh stem).1 { p with ids := (p.ids.fresh stem).2 }

end Program

/-- What a setting keeps while a function is written: `H p q` if `q` may be reached from `p` on
the way. -/
structure Setting.Writes (c : Setting) (own : Option String) (key : InstanceKey)
    (H : Program → Program → Prop) : Prop where
  adds : ∀ {p q r : Program}, H p q → q.Adds r → H p r
  start : ∀ {p : Program}, c.Holds p → H p p
  back : ∀ {p q : Program}, c.Holds p → H p q → c.Holds q
  listed : ∀ {p : Program} {inst : Instance}, c.Holds p → p.instance? key = some inst →
    c.calls p inst.backend
  list : ∀ {p q r : Program} {inst : Instance}, c.Holds p → p.instance? key = none → H p q →
    q.Names own key.types inst.backend r → H (r.listing key inst) (r.listing key inst) ∧
      ∀ f, c.calls r f → c.calls (r.listing key inst) f
  write : ∀ {p q r u : Program} {inst : Instance} {code : FnCode}, c.Holds p →
    p.instance? key = none → H p q → q.Names own key.types inst.backend r →
    H (r.listing key inst) u → code.name = inst.backend →
    code.Scoped (c.calls u) u.Declares (u.Sees c.target) →
    c.Holds (u.writing c.target code) ∧ c.calls (u.writing c.target code) inst.backend ∧
      ∀ f, c.calls u f → c.calls (u.writing c.target code) f

namespace Lives

variable {c : Setting} {w : World} {cx : Lowering} {f : UserFn} {typeArgs : List Ty}

theorem activation_fits (within : ∀ t ∈ typeArgs, t.Within w.known) :
    (f.activation typeArgs).Fits w where
  level := fun p member => absurd member (by simp [UserFn.activation])
  outer := by simp [UserFn.activation]
  typeParams p member := by
    have zipped := List.mem_reverse.mp member
    exact within p.2 (List.of_mem_zip zipped).2

def SignatureFits (w : World) (p : List Ty × Ty) : Prop :=
  (∀ t ∈ p.1, t.Within w.known) ∧ p.2.Within w.known

theorem signature (abides : cx.Abides c) (within : ∀ t ∈ typeArgs, t.Within w.known) :
    Lives c w (f.signature cx typeArgs) SignatureFits := by
  unfold UserFn.signature
  refine (inFrame (Q := SignatureFits) (activation_fits within) ?_).mono fun w' _ p fits => ?_
  · refine bind (types abides _) fun w₁ _ params own => ?_
    cases f.decl.ret with
    | some ty =>
      refine bind (type abides ty) fun w₂ sub t own' => ?_
      exact pure ⟨fun t member => (own t member).mono sub.known, own'⟩
    | none =>
      refine bind voidTy fun w₂ sub t own' => ?_
      exact pure ⟨fun t member => (own t member).mono sub.known, own'⟩
  · obtain ⟨_, fits⟩ := fits
    exact fits

/-- Parameters are in scope once they are bound. -/
theorem bindParams {ps : List FnParam} {tys : List Ty} (within : ∀ t ∈ tys, t.Within w.known)
    {s : Emission} (inside : s.In c w) :
    Ends (UserFn.bindParams ps tys) s
      (fun qs t => t.In c (w.plus (qs.map Prod.fst)) ∧
        ∀ q ∈ qs, Ids.Coined q.1 ∧ ∀ id ∈ q.2.ids, w.structs id)
      (fun _ _ => True) := by
  induction ps generalizing w tys s with
  | nil => exact Ends.pure ⟨by simpa using inside, by simp⟩
  | cons p ps ih =>
    cases tys with
    | nil => exact Ends.pure ⟨by simpa using inside, by simp⟩
    | cons ty tys =>
      have own := within ty (by simp)
      have rest (t : Ty) (member : t ∈ tys) := within t (by simp [member])
      rw [UserFn.bindParams]
      split
      · refine Ends.bind ((inside.named _ (Value.fits_const own _)).mono ?_ fun _ _ no => no.elim)
        exact fun _ t named => ih rest named.1
      · have numbered := inside.numbered (Nat.le_succ s.program.ids.next)
        have coined := s.program.ids.coined_fresh p.name.name
        refine Ends.bind (show Ends (Emit.fresh p.name.name) s _ _ from ?_)
        have value : Value.Fits (w.plus [(s.program.ids.fresh p.name.name).1])
            (.code (.name (s.program.ids.fresh p.name.name).1) ty) :=
          Value.fits_code own (counting coined)
        refine Ends.bind (((numbered.plus _).named _ value).mono ?_ fun _ _ no => no.elim)
        intro _ t named
        refine Ends.bind ((ih (w := w.plus _) rest named.1).mono ?_ fun _ _ => id)
        rintro qs u ⟨state, fits⟩
        rw [World.plus_plus] at state
        exact Ends.pure ⟨state, List.forall_mem_cons.mpr ⟨⟨coined, World.stored_within own⟩, fits⟩⟩

/-! ## Bodies -/

theorem sourceText (abides : cx.Abides c) (parts : List SourcePart) :
    Lives c w (UserFn.sourceText cx parts) fun _ _ => True := by
  induction parts generalizing w with
  | nil => exact pure trivial
  | cons part parts ih =>
    cases part with
    | text t =>
      rw [UserFn.sourceText]
      exact bind ih fun _ _ _ _ => pure trivial
    | interp e =>
      rw [UserFn.sourceText]
      refine bind (abides.expr w e) fun w₁ _ v fits => ?_
      refine bind (locating (lift (Value.nonVoid_grants fits _))) fun w₂ _ u fits => ?_
      refine bind (toCode fits cx.target) fun w₃ _ a _ => ?_
      exact bind ih fun _ _ _ _ => pure trivial

theorem sourceBody (abides : cx.Abides c) (blocks : List SourceBlock) :
    Lives c w (UserFn.sourceBody cx blocks) Line.AllFit := by
  unfold UserFn.sourceBody
  split
  · exact problem _
  · exact bind (sourceText abides _) fun _ _ text _ => pure (UserFn.foreignLines_fit text)

theorem locatingTail {α : Type} {act : Emit α} {Q : World → α → Prop} (body : Block)
    (h : Lives c w act Q) : Lives c w (UserFn.locatingTail body act) Q := by
  unfold UserFn.locatingTail
  split
  · exact locating h
  · exact h

theorem ordinaryBody {ret : Ty} (abides : cx.Abides c) (within : ret.Within w.known) :
    Lives c w (f.ordinaryBody cx ret) Line.AllFit := by
  unfold UserFn.ordinaryBody
  refine bind (abides.block w _) fun w₁ sub₁ v fits => ?_
  refine bind (locatingTail _ (convert fits (within.mono sub₁.known) cx.target))
    fun w₂ _ u fits => ?_
  split
  · refine bind (discard fits cx.target) fun w₃ _ _ _ => pure ?_
    simp [Line.AllFit, Line.AllScoped]
  · refine bind (toCode fits cx.target) fun w₃ _ a fits => pure (Line.allScoped_singleton.mpr ?_)
    rw [Line.Scoped]
    exact fits.loose

/-- A body with its last lines. -/
theorem bodyBlock {body : Emit (List Line)} (h : Lives c w body Line.AllFit) :
    Lives c w (Emit.inBlock body) fun w' p =>
      w'.names = w.names ∧ Line.AllFit w' (p.2 ++ p.1) := by
  refine (inBlockWith [] (by simpa using h)).mono fun w' _ p fits => ?_
  simp only [World.plus_nil, List.nil_append] at fits
  exact ⟨fits.1, Line.allScoped_append.mpr fits.2⟩

theorem emit {inst : Instance} (abides : cx.Abides c) (within : ∀ t ∈ typeArgs, t.Within w.known)
    (tidy : inst.Tidy w.known) :
    Lives c w (f.emit cx inst typeArgs) fun w code =>
      code.name = inst.backend ∧ code.Scoped w.calls w.structs c.outside := by
  unfold UserFn.emit
  refine (inFrame_of_ends (Q := fun w code => code.name = inst.backend ∧
    code.Scoped w.calls w.structs c.outside) (activation_fits within) fun s inside => ?_).mono
      fun w' _ code fits => ?_
  · refine Ends.bind ((bindParams (w := w.at_ c.outside) tidy.params inside).mono ?_ fun _ _ => id)
    rintro qs t ⟨state, params⟩
    refine Ends.bind ((bodyBlock ?_ t state).mono ?_ fun _ _ => id)
    · split
      · exact sourceBody abides _
      · exact ordinaryBody abides tidy.ret
    · rintro ⟨last, ls⟩ u ⟨w', _, writes, _, state', names, fits⟩
      have sub := writes.sub
      refine Ends.pure ⟨w', ((w.at_ c.outside).sub_plus _).trans sub, state', rfl, tidy.backend,
        fun q member => (params q member).imp_right fun ids id inside =>
          sub.structs id (ids id inside),
        fun id inside => sub.structs id (World.stored_within (w := w) tidy.ret id inside), ?_⟩
      rw [Line.AllFit, names] at fits
      exact fits
  · obtain ⟨names, fits⟩ := fits
    exact ⟨fits.1, fits.2.name, fits.2.params, fits.2.result, fits.2.body⟩

/-! ## Calls -/

variable {args : List Value}

theorem bindArgs {ps : List FnParam} (h : ∀ v ∈ args, v.Fits w) :
    Lives c w (UserFn.bindArgs ps args) fit := by
  induction ps generalizing w args with
  | nil => exact pure trivial
  | cons p ps ih =>
    cases args with
    | nil => exact pure trivial
    | cons v vs =>
      rw [UserFn.bindArgs]
      refine bind (bindName _ (h v (by simp))) fun w₁ sub _ _ => ?_
      exact ih fun u member => (h u (by simp [member])).mono sub

/-- What is computed is known, so it needs nothing of where it was computed. -/
theorem compute {inst : Instance} (abides : cx.Abides c)
    (within : ∀ t ∈ typeArgs, t.Within w.known) (ret : inst.ret.Within w.known)
    (h : ∀ v ∈ args, v.Fits w) (known : args.all Value.isConst = true) :
    Lives c w (f.compute cx inst args typeArgs) fit := by
  unfold UserFn.compute
  have fits : ∀ v ∈ args, v.Fits (w.at_ c.outside) := fun v member =>
    Value.fits_of_isConst (List.all_eq_true.mp known v member) (h v member).ty
  have body : Lives c (w.at_ c.outside) (do
      UserFn.bindArgs f.decl.params args
      let v ← cx.block f.decl.body
      liftM (v.convert cx.target inst.ret) : Emit Value) fit := by
    refine bind (bindArgs fits) fun w₁ sub₁ _ _ => ?_
    refine bind (abides.block w₁ _) fun w₂ sub₂ v fits => ?_
    exact convert fits (ret.mono (sub₁.trans sub₂).known) cx.target
  refine bind (computing (inFrame (activation_fits within) body.inBlock)) fun w₁ _ p fits => ?_
  obtain ⟨names, _, fits⟩ := fits
  refine pure ?_
  split
  · rename_i found
    rintro _ ⟨⟩
    exact Value.fits_of_isConst (Bool.and_eq_true_iff.mp found).2 fits.ty
  · simp [fit]

theorem convertArgs {tys : List Ty} (h : ∀ v ∈ args, v.Fits w)
    (within : ∀ t ∈ tys, t.Within w.known) (span : Span) :
    Lives c w (UserFn.convertArgs cx span args tys) fit := by
  induction args generalizing w tys with
  | nil => exact pure (by simp [fit])
  | cons v vs ih =>
    cases tys with
    | nil => exact pure (by simp [fit])
    | cons ty tys =>
      rw [UserFn.convertArgs]
      refine bind (expect (h v (by simp)) (within ty (by simp)) cx.target span)
        fun w₁ sub₁ u fits => ?_
      refine bind (ih (fun x member => (h x (by simp [member])).mono sub₁)
        fun t member => (within t (by simp [member])).mono sub₁.known) fun w₂ sub₂ us rest => ?_
      exact pure (List.forall_mem_cons.mpr ⟨Value.Fits.mono sub₂ fits, rest⟩)

theorem argCodes_grants {tys : List Ty} (h : ∀ v ∈ args, v.Fits w) (target : Target) :
    Grants (UserFn.argCodes target args tys) fun codes => ∀ a ∈ codes, a.Fits w := by
  induction args generalizing tys with
  | nil => exact fun a member => absurd member (by simp)
  | cons v vs ih =>
    cases tys with
    | nil => exact fun a member => absurd member (by simp)
    | cons ty tys =>
      have rest : Grants (UserFn.argCodes target vs tys) fun codes => ∀ a ∈ codes, a.Fits w :=
        ih fun u member => h u (by simp [member])
      rw [UserFn.argCodes]
      split
      · exact rest
      · refine .bind ((v.toCode_grants (h v (by simp)) target).imp fun a fits => ?_)
        exact .bind (rest.imp fun codes others => List.forall_mem_cons.mpr ⟨fits, others⟩)

/-- A call of a function that may be called. -/
theorem call_fits {inst : Instance} {codes : List Code} (coined : Ids.Coined inst.backend)
    (callable : w.calls inst.backend) (h : ∀ a ∈ codes, a.Fits w) :
    (Code.call inst.backend codes).Fits w := by
  refine .call ⟨coined.plain, fun _ => callable, fun id named => ?_⟩ fun a member =>
    (h a member).loose
  exact absurd coined named.not_coined

def Written (w : World) (inst : Instance) : Prop :=
  inst.Tidy w.known ∧ w.calls inst.backend

theorem Written.mono {v w : World} (sub : v.Sub w) {inst : Instance} (h : Written v inst) :
    Written w inst :=
  ⟨h.1.mono sub.known, sub.calls _ h.2⟩

theorem writeCall {inst : Instance} (written : Written w inst) (h : ∀ v ∈ args, v.Fits w) :
    Lives c w (UserFn.writeCall cx inst args) fit := by
  unfold UserFn.writeCall
  refine bind (lift (Q := fun w codes => ∀ a ∈ codes, Code.Fits w a)
    (argCodes_grants h cx.target)) fun w₁ sub₁ codes fits => ?_
  obtain ⟨tidy, callable⟩ := written.mono sub₁
  have call := call_fits tidy.backend callable fits
  split
  · have line : Line.Scoped w₁.Uses w₁.names (.eval (.call inst.backend codes)) := by
      rw [Line.Scoped]
      exact call.loose
    exact bind (effect line) fun w₂ sub₂ _ _ =>
      pure (Value.fits_const (tidy.ret.mono sub₂.known) _)
  · exact pure (Value.fits_code tidy.ret call)

theorem answer {inst : Instance} (abides : cx.Abides c)
    (within : ∀ t ∈ typeArgs, t.Within w.known) (written : Written w inst)
    (h : ∀ v ∈ args, v.Fits w) (span : Span) :
    Lives c w (f.answer cx inst args typeArgs span) fit := by
  unfold UserFn.answer
  refine bind (convertArgs h written.1.params span) fun w₁ sub₁ args' fits => ?_
  refine bind (look (Q := fun _ _ => True) fun _ _ => trivial) fun w₂ sub₂ depth _ => ?_
  have sub := sub₁.trans sub₂
  have written := written.mono sub
  have fits : ∀ v ∈ args', v.Fits w₂ := fun v member => Value.Fits.mono sub₂ (fits v member)
  split
  · rename_i short
    simp only [Bool.and_eq_true] at short
    refine bind (compute abides (fun t member => (within t member).mono sub.known) written.1.ret
      fits short.1.2) fun w₃ sub₃ found fits' => ?_
    cases found with
    | some v => exact pure (fits' v rfl)
    | none => exact writeCall (written.mono sub₃) fun v member => (fits v member).mono sub₃
  · rw [pure_bind]
    exact writeCall written fits

end Lives

/-! ## Instances -/

def World.calling (w : World) (calls : String → Prop) : World := { w with calls }

theorem World.writes_calling {w : World} {calls : String → Prop} (more : ∀ f, w.calls f → calls f) :
    w.Writes [] (w.calling calls) where
  sub := ⟨fun _ => id, fun _ => id, more, fun _ => id⟩
  names := by simp [World.calling]
  fit := by simp [Line.AllScoped]

namespace Emission.In

variable {c : Setting} {w : World} {s : Emission}

/-- What is kept to may change where the program does not. -/
theorem keeping (inside : s.In c w) {H : Program → Prop} (holds : H s.program)
    (adds : ∀ {p q : Program}, H p → p.Adds q → H q) : s.In (c.keeping H adds) w :=
  ⟨inside.tidy, inside.calls, inside.externals, inside.declared, inside.outside, holds,
    inside.frame⟩

theorem of_keeping {H : Program → Prop} {adds : ∀ {p q : Program}, H p → p.Adds q → H q}
    (inside : s.In (c.keeping H adds) w) (holds : c.Holds s.program) : s.In c w :=
  ⟨inside.tidy, inside.calls, inside.externals, inside.declared, inside.outside, holds,
    inside.frame⟩

/-- A state with another program, that has the same values from outside and functions. -/
theorem move {p : Program} (inside : s.In c w) (tidy : p.Tidy w.toGround)
    (params : p.params = s.program.params) (functions : p.functions = s.program.functions)
    (more : ∀ f, c.calls s.program f → c.calls p f) {H : Program → Prop} (holds : H p)
    (adds : ∀ {p q : Program}, H p → p.Adds q → H q) :
    w.Writes [] (w.calling (c.calls p)) ∧
      Emission.In (c.keeping H adds) (w.calling (c.calls p)) { s with program := p } := by
  have writes : w.Writes [] (w.calling (c.calls p)) :=
    World.writes_calling fun f h => more f ((inside.calls f).mp h)
  exact ⟨writes, tidy, fun _ => .rfl, fun x => params ▸ inside.externals x,
    functions ▸ inside.declared, inside.outside, holds, inside.frame.mono writes.sub⟩

end Emission.In

namespace Program

variable {g : Ground} {p : Program}

theorem Tidy.listing (h : p.Tidy g) (key : InstanceKey) {inst : Instance}
    (tidy : inst.Tidy g.known) : (p.listing key inst).Tidy g :=
  { h with instances := List.forall_mem_cons.mpr ⟨tidy, h.instances⟩ }

theorem Tidy.writing (h : p.Tidy g) (target : Target) (code : FnCode) :
    (p.writing target code).Tidy g := by
  cases target with
  | js => exact { h with }
  | glsl => exact { h with }

theorem params_writing (p : Program) (target : Target) (code : FnCode) :
    (p.writing target code).params = p.params := by
  cases target <;> rfl

theorem functions_writing (p : Program) (target : Target) (code : FnCode) :
    (p.writing target code).functions = p.functions := by
  cases target <;> rfl

end Program

namespace Lives

variable {c : Setting} {w : World} {cx : Lowering} {f : UserFn} {typeArgs : List Ty}

/-- What lives where more is kept to lives here too, if that leads back. -/
theorem within {α : Type} {act : Emit α} {Q : World → α → Prop} {H : Program → Program → Prop}
    (adds : ∀ {p q r : Program}, H p q → q.Adds r → H p r)
    (start : ∀ {p : Program}, c.Holds p → H p p)
    (back : ∀ {p q : Program}, c.Holds p → H p q → c.Holds q)
    (h : ∀ p, Lives (c.keeping (H p) adds) w act Q) : Lives c w act Q := by
  intro s inside
  refine (h s.program s (inside.keeping (start inside.holds) adds)).mono ?_ fun _ _ => id
  rintro a t ⟨w', ls, writes, gained, state, holds⟩
  exact ⟨w', ls, writes, gained, state.of_keeping (back inside.holds state.holds), holds⟩

/-- A function gets its types and its name. -/
theorem sign (abides : cx.Abides c) (coined : ∀ name ∈ f.backend, Ids.Coined name)
    (within : ∀ t ∈ typeArgs, t.Within w.known) {s : Emission} (inside : s.In c w) :
    Ends (f.sign cx typeArgs) s
      (fun inst t => ∃ w' ls q, w.Writes ls w' ∧ s.Gains ls t ∧
        t.In c w' ∧ inst.Tidy w'.known ∧ c.Holds q ∧
        q.Names f.backend typeArgs inst.backend t.program)
      (fun _ _ => True) := by
  unfold UserFn.sign
  refine Ends.bind ((signature abides within s inside).mono (fun types t reached => ?_)
    fun _ _ => id)
  obtain ⟨w', ls, writes, gained, state, fits⟩ := reached
  obtain ⟨params, ret⟩ := types
  dsimp only
  split
  · rename_i name found
    exact Ends.bind_run rfl (Ends.pure ⟨w', ls, t.program, writes, gained, state,
      ⟨fits.1, fits.2, coined name found⟩, state.holds, .own found rfl⟩)
  · exact Ends.bind_run rfl (Ends.pure ⟨w', ls, t.program, writes, ⟨gained.lines, gained.outer⟩,
      state.numbered (Nat.le_succ _), ⟨fits.1, fits.2, Ids.coined_fresh _ _⟩, state.holds,
      .fresh f.stem⟩)

/-- A function is there once it was asked for. -/
theorem instantiate {H : Program → Program → Prop} (target : cx.target = c.target)
    (writes : c.Writes f.backend ⟨f.id, cx.target, typeArgs⟩ H)
    (abides : ∀ p, cx.Abides (c.keeping (H p) writes.adds))
    (coined : ∀ name ∈ f.backend, Ids.Coined name) (within : ∀ t ∈ typeArgs, t.Within w.known) :
    Lives c w (f.instantiate cx typeArgs) Written := by
  intro s inside
  rw [UserFn.instantiate_eq]
  refine Ends.bind_run rfl ?_
  cases found : s.program.instance? ⟨f.id, cx.target, typeArgs⟩ with
  | some inst =>
    obtain ⟨entry, listed, rfl⟩ := Option.map_eq_some_iff.mp found
    have tidy := inside.tidy.instances entry (List.mem_of_find?_eq_some listed)
    have callable := (inside.calls _).mpr (writes.listed inside.holds found)
    exact Ends.pure ⟨w, [], .refl w, Emission.gains_nil rfl rfl, inside, tidy, callable⟩
  | none =>
    refine Ends.bind ((sign (abides s.program) coined within
      (inside.keeping (writes.start inside.holds) writes.adds)).mono ?_ fun _ _ => id)
    intro inst t signed
    obtain ⟨w₁, ls₁, q, writes₁, gained₁, state₁, tidy, reached, named⟩ := signed
    -- the function is listed before its body is written, so that the body may call it
    obtain ⟨holds, more⟩ := writes.list inside.holds found reached named
    obtain ⟨writes₂, state₂⟩ := state₁.move (state₁.tidy.listing ⟨f.id, cx.target, typeArgs⟩ tidy)
      rfl rfl more holds writes.adds
    refine Ends.bind_run rfl ?_
    have known := (writes₁.sub.trans writes₂.sub).known
    refine Ends.bind (Ends.bind ((emit (abides _) (fun t member => (within t member).mono known)
      (tidy.mono writes₂.sub.known) _ state₂).mono ?_ fun _ _ => id))
    intro code u emitted
    obtain ⟨w₃, ls₃, writes₃, gained₃, state₃, name, fits⟩ := emitted
    have fits : code.Scoped (c.calls u.program) u.program.Declares (u.program.Sees c.target) :=
      fits.mono (fun g => (state₃.calls g).mp) state₃.tidy.structs fun x => (state₃.externals x).mp
    obtain ⟨holds', callable, more'⟩ :=
      writes.write inside.holds found reached named state₃.holds name fits
    obtain ⟨writes₄, state₄⟩ := state₃.move (state₃.tidy.writing c.target code)
      (u.program.params_writing c.target code) (u.program.functions_writing c.target code) more'
      holds' fun holds adds => c.holds_adds adds holds
    rw [target]
    refine ⟨_, _, ((writes₁.trans writes₂).trans writes₃).trans writes₄, ?_, state₄, ?_, callable⟩
    · have gained : s.Gains (ls₁ ++ ls₃) u := gained₁.trans ⟨gained₃.lines, gained₃.outer⟩
      exact ⟨by simpa using gained.lines, gained.outer⟩
    · exact tidy.mono ((writes₂.trans writes₃).trans writes₄).sub.known

/-- A call of a declared function. -/
theorem userCall {H : Program → Program → Prop} {args : List Value} (target : cx.target = c.target)
    (writes : c.Writes f.backend ⟨f.id, cx.target, typeArgs⟩ H)
    (abides : ∀ p, cx.Abides (c.keeping (H p) writes.adds))
    (coined : ∀ name ∈ f.backend, Ids.Coined name) (within : ∀ t ∈ typeArgs, t.Within w.known)
    (h : ∀ v ∈ args, v.Fits w) (span : Span) :
    Lives c w (f.call cx args typeArgs span) fit := by
  unfold UserFn.call
  refine bind (instantiate target writes abides coined within) fun w₁ sub inst written => ?_
  refine Lives.within (H := H) writes.adds writes.start writes.back fun p => ?_
  exact answer (abides p) (fun t member => (within t member).mono sub.known) written
    (fun v member => (h v member).mono sub) span

end Lives
end Ember
