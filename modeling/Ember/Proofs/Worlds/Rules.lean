import Ember.Lower.Expr
import Ember.Proofs.Safe.Rules
import Ember.Proofs.Worlds.Structs

/-!
# The rules of lowering in their world

Each rule lives in the world that it is used in if what it gets to work with does. Where a rule
writes a block of its own, what is declared in it is out of scope after it, and the value of the
block is assigned to a variable that was declared before it.
-/

set_option autoImplicit false

namespace Ember

open Emit

structure Lowering.Abides (c : Setting) (cx : Lowering) : Prop where
  target : cx.target = c.target
  expr : ∀ (w : World) (e : Expr), Lives c w (cx.expr e) fit
  block : ∀ (w : World) (b : Block), Lives c w (cx.block b) fit
  join : ∀ (w : World) (cond : Value) (yes no : Side) (what : String), cond.Fits w →
    fit w yes → fit w no → Lives c w (cx.join cond yes no what) fit
  user : ∀ (w : World) (f : UserFn) (args : List Value) (typeArgs : List Ty) (span : Span),
    c.declared f → (∀ name ∈ f.backend, Ids.Coined name) → (∀ v ∈ args, v.Fits w) →
    (∀ t ∈ typeArgs, t.Within w.known) → Lives c w (cx.user f args typeArgs span) fit

/-! ## Types -/

theorem Ty.mkArray_grants {K : Known} {of : Ty} (within : of.Within K) (len : Nat) :
    Grants (mkArray of len) (Ty.Within K) := by
  unfold mkArray
  split
  · trivial
  · split
    · trivial
    · exact within

theorem Ty.mkAlt_grants {K : Known} {members : List Struct} (known : ∀ s ∈ members, K s) :
    Grants (mkAlt members) (Ty.Within K) := by
  have listed := (members_ordered members).2
  unfold mkAlt
  split
  · trivial
  · rename_i first others found
    rw [found] at listed
    have first_known := known first (listed first (by simp))
    split
    · trivial
    · split
      · exact first_known
      · exact ⟨first_known, fun s member => known s (listed s (by simp [member]))⟩

theorem Program.Tidy.type? {g : Ground} {p : Program} (h : p.Tidy g) {name : String} {t : Ty}
    (found : p.env.type? name = some t) : t.Within g.known := by
  rcases eq_some_of_orElse found with own | root
  · exact h.own.types _ (mem_of_lookup own)
  · exact h.root.types _ (mem_of_lookup root)

namespace Lives

variable {c : Setting} {w : World} {cx : Lowering}

theorem arrayLength (abides : cx.Abides c) (len : Expr) :
    Lives c w (cx.arrayLength len) fit := by
  unfold Lowering.arrayLength
  refine bind (abides.expr w len).inBlock fun w₁ _ p _ => locating ?_
  split
  · split
    · exact pure trivial
    · exact problem _
  · split
    · exact problem _
    · exact problem _

theorem namedTy (name : String) : Lives c w (Lowering.namedTy name) fit := by
  unfold Lowering.namedTy
  have params : Lives c w (Emit.look (·.frame.typeParams)) fun w ps =>
      ∀ p ∈ ps, p.2.Within w.known := look fun _ inside => inside.frame.typeParams
  refine bind params fun w₁ _ ps within => ?_
  split
  · rename_i ty found
    exact pure (within _ (mem_of_lookup found))
  · have env : Lives c w₁ (Emit.look (·.program.env)) fun w e =>
        ∀ t, e.type? name = some t → t.Within w.known :=
      look fun _ inside t found => inside.tidy.type? found
    refine bind env fun w₂ _ e types => ?_
    split
    · rename_i ty found
      exact pure (types ty found)
    · exact problem _

theorem memberStructs {t : Ty} (within : t.Within w.known) (span : Span) :
    Lives c w (Lowering.memberStructs t span) fit := by
  unfold Lowering.memberStructs
  split
  · exact pure (List.forall_mem_singleton.mpr within)
  · exact pure (List.forall_mem_cons.mpr within)
  · exact locating (problem _)
  · exact locating (problem _)

mutual

theorem type {w : World} (abides : cx.Abides c) : ∀ t : TypeExpr, Lives c w (cx.type t) fit
  | ⟨.empty, _⟩ => by
    rw [Lowering.type]
    exact locating (defect _)
  | ⟨.named name args, _⟩ => by
    rw [Lowering.type]
    refine locating ?_
    split
    · exact namedTy _
    · exact problem _
  | ⟨.array of len, _⟩ => by
    rw [Lowering.type]
    refine locating ?_
    refine bind (type abides of) fun w₁ _ element within => ?_
    refine bind (arrayLength abides len) fun w₂ sub n _ => ?_
    exact lift (Ty.mkArray_grants (within.mono sub.known) n)
  | ⟨.alt members, _⟩ => by
    rw [Lowering.type]
    refine locating ?_
    refine bind (memberTypes abides members) fun w₁ _ ss known => ?_
    exact lift (Ty.mkAlt_grants known)

theorem memberTypes {w : World} (abides : cx.Abides c) :
    ∀ ts : List TypeExpr, Lives c w (cx.memberTypes ts) fit
  | [] => by
    rw [Lowering.memberTypes]
    exact pure (by simp [fit])
  | ⟨kind, span⟩ :: ts => by
    rw [Lowering.memberTypes]
    refine bind (type abides ⟨kind, span⟩) fun w₁ _ ty within => ?_
    refine bind (memberStructs within span) fun w₂ _ ss known => ?_
    refine bind (memberTypes abides ts) fun w₃ sub ss' known' => ?_
    exact pure (List.forall_mem_append.mpr ⟨Fitting.mono sub known, known'⟩)

end

theorem types (abides : cx.Abides c) (ts : List TypeExpr) : Lives c w (cx.types ts) fit :=
  mapM fun _ _ t _ => type abides t

/-! ## Calls -/

variable {args : List Value} {typeArgs : List Ty}

theorem arguments_grants {ps : List Param} (h : ∀ v ∈ args, v.Fits w)
    (within : ∀ p ∈ ps, p.ty.Within w.known) :
    Grants (cx.arguments args ps) fun vs => ∀ v ∈ vs, v.Fits w := by
  induction args generalizing ps with
  | nil =>
    rw [Lowering.arguments.eq_def]
    exact fun v member => absurd member (by simp)
  | cons v vs ih =>
    cases ps with
    | nil =>
      rw [Lowering.arguments.eq_def]
      exact fun v member => absurd member (by simp)
    | cons p ps =>
      have own := h v (by simp)
      have taken : Grants (cx.argument v p.ty) (Value.Fits w) := by
        have ty := within p (by simp)
        cases form : p.ty with
        | exact t =>
          rw [form] at ty
          exact Value.convert_grants own ty cx.target
        | vector k =>
          rw [Lowering.argument]
          split
          · exact own
          · have scalar : (Ty.scalar k).Within w.known := trivial
            exact Value.convert_grants own scalar cx.target
        | any => exact own
      rw [Lowering.arguments]
      refine .bind (taken.imp fun u fits => .bind ?_)
      exact (ih (fun u member => h u (by simp [member])) fun q member =>
        within q (by simp [member])).imp fun us rest => List.forall_mem_cons.mpr ⟨fits, rest⟩

/-- What a function does lives where its arguments fit. -/
theorem run {b : Behaviour} (abides : cx.Abides c) (tidy : b.Tidy w.known)
    (declared : ∀ f, b = .user f → c.declared f) (h : ∀ v ∈ args, v.Fits w)
    (within : ∀ t ∈ typeArgs, t.Within w.known) (span : Span) :
    Lives c w (b.run cx args typeArgs span) fit := by
  unfold Behaviour.run
  split
  · exact lift (Value.construct_grants tidy h cx.target)
  · rename_i ty v
    refine bind (cache (h v (by simp)) cx.target) fun w₁ sub u fits => ?_
    refine lift (Value.fromScalars_grants (Ty.Within.mono sub.known tidy) (fun x member => ?_)
      cx.target)
    rw [List.eq_of_mem_replicate member]
    exact fits
  · exact matrixProduct (h _ (by simp)) (h _ (by simp)) cx.target
  · exact mapOp h cx.target _
  · exact reduce h cx.target _
  · exact lift (count_grants _)
  · exact normalize (h _ (by simp)) cx.target
  · exact lift (cast_grants (h _ (by simp)) cx.target _ _)
  · exact abides.user w _ args typeArgs span (declared _ rfl) tidy h within
  · exact defect _
  · exact defect _
  · exact defect _
  · exact defect _
  · exact defect _

def Candidates (c : Setting) (w : World) (cs : List Candidate) : Prop :=
  ∀ d ∈ cs, d.function.Tidy w.known ∧ ∀ f, d.function.behaviour = .user f → c.declared f

theorem dispatch {cs : List Candidate} (abides : cx.Abides c) (functions : Candidates c w cs)
    (h : ∀ v ∈ args, v.Fits w) (within : ∀ t ∈ typeArgs, t.Within w.known) (display : String)
    (span : Span) : Lives c w (cx.dispatch display cs args typeArgs span) fit := by
  unfold Lowering.dispatch
  have resolved := (resolve_gives w.known display cs (args.map Value.ty)).mono
    (fun _ => id) fun _ _ => trivial
  refine bind (lift (Q := fun w (f : Function) => f.Tidy w.known ∧
    ∀ g, f.behaviour = .user g → c.declared g) (resolved.imp ?_)) fun w₁ sub₁ f tidy => ?_
  · rintro f ⟨⟨d, member, rfl⟩, _⟩
    exact functions d member
  refine bind (lift (Q := fun _ _ => True) (.of_forall fun _ => trivial)) fun w₂ sub₂ _ _ => ?_
  have sub := sub₁.trans sub₂
  have known := tidy.1.mono sub₂.known
  refine bind (lift (Q := fun w vs => ∀ v ∈ vs, v.Fits w)
    (arguments_grants (fun v member => (h v member).mono sub) known.params))
    fun w₃ sub₃ vs fits => ?_
  exact run abides (known.behaviour.mono sub₃.known) tidy.2 fits
    (fun t member => (within t member).mono (sub.trans sub₃).known) span

theorem candidates_fit {s : Emission} (inside : s.In c w) {scope : Scope}
    (tidy : scope.Tidy w.known)
    (listed : ∀ p ∈ scope.functions, p ∈ s.program.functions) (depth : Nat) (name : String) :
    Candidates c w (scope.candidates depth name) := by
  intro d member
  obtain ⟨p, kept, rfl⟩ := List.mem_map.mp member
  have found := (List.mem_filter.mp kept).1
  exact ⟨tidy.functions p found, inside.declared p (listed p found)⟩

theorem own_candidates_fit {s : Emission} (inside : s.In c w) (name : String) :
    Candidates c w (s.program.env.candidates name) := by
  intro d member
  rcases List.mem_append.mp member with own | root
  · exact candidates_fit inside inside.tidy.own (fun p => List.mem_append_left _) 0 name d own
  · exact candidates_fit inside inside.tidy.root (fun p => List.mem_append_right _) 1 name d root

theorem call (abides : cx.Abides c) (h : ∀ v ∈ args, v.Fits w)
    (within : ∀ t ∈ typeArgs, t.Within w.known) (name : String) (span : Span) :
    Lives c w (cx.call name args typeArgs span) fit := by
  have env : Lives c w (Emit.look (·.program.env)) fun w e => Candidates c w (e.candidates name) :=
    look fun _ inside => own_candidates_fit inside name
  refine bind env fun w₁ sub e functions => ?_
  exact dispatch abides functions (fun v member => (h v member).mono sub)
    (fun t member => (within t member).mono sub.known) name span

theorem callBuiltin (abides : cx.Abides c) (h : ∀ v ∈ args, v.Fits w)
    (within : ∀ t ∈ typeArgs, t.Within w.known) (name : String) (span : Span) :
    Lives c w (cx.callBuiltin name args typeArgs span) fit := by
  have env : Lives c w (Emit.look (·.program.env)) fun w e => Candidates c w (e.builtins name) :=
    look fun _ inside =>
      candidates_fit inside inside.tidy.root (fun p => List.mem_append_right _) 0 name
  refine bind env fun w₁ sub e functions => ?_
  exact dispatch abides functions (fun v member => (h v member).mono sub)
    (fun t member => (within t member).mono sub.known) _ span

theorem operator (abides : cx.Abides c) (h : ∀ v ∈ args, v.Fits w) (key symbol : String)
    (span : Span) : Lives c w (cx.operator key symbol args span) fit := by
  have env : Lives c w (Emit.look (·.program.env)) fun w e => Candidates c w (e.candidates key) :=
    look fun _ inside => own_candidates_fit inside key
  refine bind env fun w₁ sub e functions => ?_
  exact dispatch abides functions (fun v member => (h v member).mono sub) (by simp) symbol span

/-! ## Patterns -/

variable {v : Value}

theorem patternStruct (name : Ident) (t : Ty) :
    Lives c w (Lowering.patternStruct name t) fun _ _ => True := by
  refine bind (look (Q := fun _ _ => True) fun _ _ => trivial) fun w₁ _ e _ => locating ?_
  split
  · split
    · exact pure trivial
    · exact problem _
  · exact problem _
  · exact problem _

theorem patternField (s : Struct) (name : Ident) :
    Lives c w (Lowering.patternField s name) fit := by
  unfold Lowering.patternField
  split
  · exact pure trivial
  · exact locating (problem _)

theorem checkFields (s : Struct) (names : List String) :
    Lives c w (Lowering.checkFields s names) fit := by
  unfold Lowering.checkFields
  split
  · exact problem _
  · split
    · exact problem _
    · exact pure trivial

theorem checkArrayPattern (t : Ty) (count : Nat) (rest : Bool) :
    Lives c w (Lowering.checkArrayPattern t count rest) fit := by
  unfold Lowering.checkArrayPattern
  split
  · exact problem _
  · split
    · exact problem _
    · exact pure trivial

theorem elementAt (h : v.Fits w) (i : Nat) : Lives c w (cx.elementAt v i) fit :=
  index h (Value.fits_int _) cx.target

theorem ownedCode (h : v.Fits w) (target : Target) :
    Lives c w (liftM (Emit.ownedCode target v)) fit :=
  lift (ownedCode_grants h target)

theorem bound (h : v.Fits w) (name : String) (mutable : Bool) :
    Lives c w (cx.bound name mutable v) fit := by
  unfold Lowering.bound
  split
  · exact pure (Value.fits_const h.ty _)
  · split
    · exact pure h
    · refine bind (fresh name) fun w₁ sub₁ x coined => ?_
      have own := h.mono sub₁
      have rest (w₂ : World) (sub₂ : w₁.Sub w₂) (init : Code) (fits : init.Fits w₂) :
          Lives c w₂ (do
            Emit.declareVar x v.ty (some init) mutable
            return (⟨.code (.name x), v.ty, mutable⟩ : Value)) fit := by
        have within := (own.mono sub₂).ty
        have code : ∀ a ∈ some init, a.Loose w₂ := by simpa using fits.loose
        refine bind (declareVar mutable coined (World.stored_within within) code)
          fun w₃ sub₃ _ named => ?_
        exact pure (Value.fits_code (within.mono sub₃.known) (.var coined named))
      split
      · exact bind (ownedCode own cx.target) rest
      · exact bind (toCode own cx.target) rest

theorem bindLocal (h : v.Fits w) (name : String) (mutable : Bool) :
    Lives c w (cx.bindLocal name mutable v) fit := by
  rw [Lowering.bindLocal_eq]
  exact bind (bound h name mutable) fun _ _ _ fits => bindName name fits

mutual

theorem bindPattern {w : World} {v : Value} (h : v.Fits w) :
    ∀ p : Pat, Lives c w (cx.bindPattern p v) fit
  | ⟨.ignore, _⟩ => by
    rw [Lowering.bindPattern]
    exact discard h cx.target
  | ⟨.lit _, _⟩ => by
    rw [Lowering.bindPattern]
    exact pure trivial
  | ⟨.bind name mutable, _⟩ => by
    rw [Lowering.bindPattern]
    exact bindLocal h name mutable
  | ⟨.struct name fields more, span⟩ => by
    rw [Lowering.bindPattern]
    refine bind (patternStruct name v.ty) fun w₁ sub₁ s _ => ?_
    have rest (w₂ : World) (sub₂ : w₁.Sub w₂) : Lives c w₂ (do
        cx.bindFields s fields (← Emit.cache cx.target v)) fit :=
      bind (cache (h.mono (sub₁.trans sub₂)) cx.target) fun w₃ _ u fits => bindFields fits s fields
    split
    · exact bind (locating (checkFields s _)) fun w₂ sub₂ _ _ => rest w₂ sub₂
    · exact rest w₁ (.refl w₁)
  | ⟨.array items more, _⟩ => by
    rw [Lowering.bindPattern]
    refine bind (checkArrayPattern v.ty items.length more) fun w₁ sub₁ _ _ => ?_
    refine bind (cache (h.mono sub₁) cx.target) fun w₂ _ u fits => ?_
    exact bindItems fits 0 items

theorem bindFields {w : World} {v : Value} (h : v.Fits w) (s : Struct) :
    ∀ fs : List FieldPat, Lives c w (cx.bindFields s fs v) fit
  | [] => by
    rw [Lowering.bindFields]
    exact pure trivial
  | ⟨name, pat⟩ :: fs => by
    rw [Lowering.bindFields]
    refine bind (patternField s name) fun w₁ sub₁ i _ => ?_
    refine bind (field (h.mono sub₁) i cx.target) fun w₂ sub₂ part fits => ?_
    refine bind (bindPattern fits pat) fun w₃ sub₃ _ _ => ?_
    exact bindFields (h.mono ((sub₁.trans sub₂).trans sub₃)) s fs

theorem bindItems {w : World} {v : Value} (h : v.Fits w) (i : Nat) :
    ∀ ps : List Pat, Lives c w (cx.bindItems i ps v) fit
  | [] => by
    rw [Lowering.bindItems]
    exact pure trivial
  | p :: ps => by
    rw [Lowering.bindItems]
    refine bind (elementAt h i) fun w₁ sub₁ part fits => ?_
    refine bind (bindPattern fits p) fun w₂ sub₂ _ _ => ?_
    exact bindItems (h.mono (sub₁.trans sub₂)) (i + 1) ps

end

theorem literal (l : Lit) : (Lowering.literal l).Fits w := by
  cases l with
  | int n => exact Value.fits_int n
  | float x => exact Value.fits_float _
  | bool b => exact Value.fits_bool b

theorem both {a b : Value} (abides : cx.Abides c) (ha : a.Fits w) (hb : b.Fits w) (span : Span) :
    Lives c w (cx.both a b span) fit := by
  unfold Lowering.both
  split
  · exact pure hb
  · exact pure ha
  · exact pure ha
  · exact pure hb
  · exact operator abides (by simpa using ⟨ha, hb⟩) _ _ span

mutual

theorem testPattern {w : World} {v : Value} (abides : cx.Abides c) (h : v.Fits w) :
    ∀ p : Pat, Lives c w (cx.testPattern p v) fit
  | ⟨.ignore, _⟩ => by
    rw [Lowering.testPattern]
    exact pure (Value.fits_bool true)
  | ⟨.bind name mutable, _⟩ => by
    rw [Lowering.testPattern]
    exact pure (Value.fits_bool true)
  | ⟨.lit l, span⟩ => by
    rw [Lowering.testPattern]
    exact operator abides (by simpa using ⟨h, literal l⟩) _ _ span
  | ⟨.struct name fields more, span⟩ => by
    rw [Lowering.testPattern]
    refine bind (patternStruct name v.ty) fun w₁ sub₁ s _ => ?_
    exact testFields abides span (Value.fits_bool true) (h.mono sub₁) s fields
  | ⟨.array items more, span⟩ => by
    rw [Lowering.testPattern]
    refine bind (checkArrayPattern v.ty items.length more) fun w₁ sub₁ _ _ => ?_
    exact testItems abides span (Value.fits_bool true) (h.mono sub₁) 0 items

theorem testFields {w : World} {v all : Value} (abides : cx.Abides c) (span : Span)
    (before : all.Fits w) (h : v.Fits w) (s : Struct) :
    ∀ fs : List FieldPat, Lives c w (cx.testFields span s all fs v) fit
  | [] => by
    rw [Lowering.testFields]
    exact pure before
  | ⟨name, pat⟩ :: fs => by
    rw [Lowering.testFields]
    refine bind (patternField s name) fun w₁ sub₁ i _ => ?_
    refine bind (field (h.mono sub₁) i cx.target) fun w₂ sub₂ part fits => ?_
    refine bind (testPattern abides fits pat) fun w₃ sub₃ test tested => ?_
    have sub := (sub₁.trans sub₂).trans sub₃
    refine bind (both abides (before.mono sub) tested span) fun w₄ sub₄ all' fits' => ?_
    exact testFields abides span fits' (h.mono (sub.trans sub₄)) s fs

theorem testItems {w : World} {v all : Value} (abides : cx.Abides c) (span : Span)
    (before : all.Fits w) (h : v.Fits w) (i : Nat) :
    ∀ ps : List Pat, Lives c w (cx.testItems span i all ps v) fit
  | [] => by
    rw [Lowering.testItems]
    exact pure before
  | p :: ps => by
    rw [Lowering.testItems]
    refine bind (elementAt h i) fun w₁ sub₁ part fits => ?_
    refine bind (testPattern abides fits p) fun w₂ sub₂ test tested => ?_
    have sub := sub₁.trans sub₂
    refine bind (both abides (before.mono sub) tested span) fun w₃ sub₃ all' fits' => ?_
    exact testItems abides span fits' (h.mono (sub.trans sub₃)) (i + 1) ps

end

/-! ## Symbols, struct literals and array literals -/

theorem symbolTy (name : String) : Lives c w (Lowering.symbolTy name) fit := by
  unfold Lowering.symbolTy
  have env : Lives c w (Emit.look (·.program.env)) fun w e => ∀ t, e.symbol? name = some t →
      t.Within w.known := look fun s inside t found => by
    rcases eq_some_of_orElse found with own | root
    · exact inside.tidy.own.symbols _ (mem_of_lookup own)
    · exact inside.tidy.root.symbols _ (mem_of_lookup root)
  refine bind env fun w₁ _ e symbols => ?_
  split
  · rename_i ty found
    exact pure (symbols ty found)
  · refine declares (v := ⟨":" ++ name, []⟩) (by simp)
      (fun t laid fields => declareSlots_of_nil laid fields) ?_ fun w₂ _ t known => pure known
    intro t K o known tidy
    exact ⟨{ tidy with symbols := List.forall_mem_cons.mpr ⟨known, tidy.symbols⟩ }, rfl, rfl⟩

theorem anonStruct {values : List (Ident × Value)} (h : ∀ p ∈ values, p.2.Fits w)
    (symbol : String) : Lives c w (Lowering.anonStruct symbol values) fit := by
  unfold Lowering.anonStruct
  dsimp only
  refine bind (look (Q := fun w (e : Environment) => ∀ key s, e.anon? key = some s → w.known s)
    fun st inside key s found => ?_) fun w₁ sub₁ e known => ?_
  · obtain ⟨entry, listed, rfl⟩ := Option.map_eq_some_iff.mp found
    rcases eq_some_of_orElse listed with own | root
    · exact inside.tidy.own.anon _ (List.mem_of_find?_eq_some own)
    · exact inside.tidy.root.anon _ (List.mem_of_find?_eq_some root)
  · split
    · rename_i s found
      exact pure (known _ s found)
    · refine declares (fun f member => ?_) (fun _ _ _ => rfl) ?_ fun w₂ _ t known => pure known
      · obtain ⟨p, found, rfl⟩ := List.mem_map.mp member
        exact (h p found).ty.mono sub₁.known
      · intro t K o known tidy
        exact ⟨{ tidy with anon := List.forall_mem_cons.mpr ⟨known, tidy.anon⟩ }, rfl, rfl⟩

theorem headStruct {values : List (Ident × Value)} (h : ∀ p ∈ values, p.2.Fits w)
    (head : StructHead) : Lives c w (Lowering.headStruct head values) fit := by
  cases head with
  | symbol name => exact anonStruct h name.name
  | named name =>
    have env : Lives c w (Emit.look (·.program.env)) fun w e =>
        ∀ t, e.type? name.name = some t → t.Within w.known :=
      look fun _ inside t found => inside.tidy.type? found
    refine bind env fun w₁ _ e types => locating ?_
    split
    · rename_i s found
      exact pure (types _ found)
    · exact problem _
    · exact problem _

theorem initValues (abides : cx.Abides c) (seen : List Ident) (inits : List FieldInit) :
    Lives c w (cx.initValues seen inits) fun w ps => ∀ p ∈ ps, p.2.Fits w := by
  induction inits generalizing w seen with
  | nil =>
    rw [Lowering.initValues]
    exact pure (by simp)
  | cons init inits ih =>
    obtain ⟨name, e⟩ := init
    rw [Lowering.initValues]
    have rest (w₁ : World) : Lives c w₁ (do
        let v ← cx.expr e
        return (name, v) :: (← cx.initValues (name :: seen) inits))
        fun w ps => ∀ p ∈ ps, p.2.Fits w := by
      refine bind (abides.expr w₁ e) fun w₂ _ v fits => ?_
      refine bind (ih _) fun w₃ sub ps others => ?_
      exact pure (List.forall_mem_cons.mpr ⟨Value.Fits.mono sub fits, others⟩)
    split
    · exact bind (locating (problem _)) fun w₁ _ _ (_ : True) => rest w₁
    · exact rest w

theorem placeValues {s : Struct} {values : List (Ident × Value)} (known : w.known s)
    (h : ∀ p ∈ values, p.2.Fits w) :
    Lives c w (cx.placeValues s values) fun w ps => ∀ p ∈ ps, p.2.Fits w := by
  induction values generalizing w with
  | nil =>
    rw [Lowering.placeValues]
    exact pure (by simp)
  | cons entry values ih =>
    obtain ⟨name, v⟩ := entry
    rw [Lowering.placeValues]
    refine bind (patternField s name) fun w₁ sub₁ i _ => ?_
    have own := (h (name, v) (by simp)).mono sub₁
    split
    · rename_i f at_i
      have within := w₁.fields s (sub₁.known s known) f (List.mem_of_getElem? at_i)
      refine bind (expect own within cx.target name.span) fun w₂ sub₂ u fits => ?_
      have sub := sub₁.trans sub₂
      refine bind (ih (sub.known s known) fun p member => (h p (by simp [member])).mono sub)
        fun w₃ sub₃ ps others => ?_
      exact pure (List.forall_mem_cons.mpr ⟨Value.Fits.mono sub₃ fits, others⟩)
    · exact bind (defect _) fun _ _ _ (no : False) => no.elim

theorem completeFields_grants {s : Struct} {placed : List (Nat × Value)}
    (h : ∀ p ∈ placed, p.2.Fits w) {fs : List Field} (within : ∀ f ∈ fs, f.ty.Within w.known)
    (i : Nat) :
    Grants (Lowering.completeFields s placed i fs) fun vs => ∀ v ∈ vs, v.Fits w := by
  induction fs generalizing i with
  | nil =>
    rw [Lowering.completeFields]
    exact fun v member => absurd member (by simp)
  | cons f fs ih =>
    have rest := ih fun g member => within g (by simp [member])
    rw [Lowering.completeFields]
    split
    · rename_i v found
      exact .bind ((rest _).imp fun vs others =>
        List.forall_mem_cons.mpr ⟨h _ (mem_of_lookup found), others⟩)
    · split
      · exact .bind ((rest _).imp fun vs others =>
          List.forall_mem_cons.mpr ⟨Value.fits_const (within f (by simp)) _, others⟩)
      · trivial

theorem structLit (abides : cx.Abides c) (head : StructHead) (inits : List FieldInit) :
    Lives c w (cx.structLit head inits) fit := by
  unfold Lowering.structLit
  refine bind (initValues abides [] inits) fun w₁ _ values fits => ?_
  refine bind (headStruct fits head) fun w₂ sub₂ s known => ?_
  refine bind (placeValues known fun p member => (fits p member).mono sub₂)
    fun w₃ sub₃ placed fits => ?_
  have known := sub₃.known s known
  refine bind (lift (Q := fun w vs => ∀ v ∈ vs, v.Fits w)
    (completeFields_grants fits (w₃.fields s known) 0)) fun w₄ sub₄ vs fits => ?_
  exact lift (Value.construct_grants (sub₄.known s known) fits cx.target)

theorem elements (abides : cx.Abides c) (items : List Expr) :
    Lives c w (cx.elements items) fit := by
  induction items generalizing w with
  | nil =>
    rw [Lowering.elements]
    exact pure (by simp [fit])
  | cons e es ih =>
    rw [Lowering.elements]
    refine bind (abides.expr w e) fun w₁ _ v fits => ?_
    refine bind (locating (lift (Value.nonVoid_grants fits _))) fun w₂ _ u fits => ?_
    refine bind ih fun w₃ sub us others => ?_
    exact pure (List.forall_mem_cons.mpr ⟨Value.Fits.mono sub fits, others⟩)

theorem elementTy_grants {of : Ty} (within : of.Within w.known) (h : ∀ v ∈ args, v.Fits w) :
    Grants (Lowering.elementTy of args) (Ty.Within w.known) := by
  induction args generalizing of with
  | nil => exact within
  | cons v vs ih =>
    have later : ∀ v ∈ vs, v.Fits w := fun u member => h u (by simp [member])
    rw [Lowering.elementTy]
    split_ifs
    · exact ih within later
    · exact ih (h v (by simp)).ty later
    · trivial

theorem arrayValue {t : Ty} (within : t.Within w.known) (h : ∀ v ∈ args, v.Fits w)
    (target : Target) : Lives c w (Lowering.arrayValue target t args) fit := by
  unfold Lowering.arrayValue
  split
  · exact pure (Value.fits_const within _)
  · refine bind (codes h target) fun w₁ sub codes fits => ?_
    have within := within.mono sub.known
    exact pure (Value.fits_code within (Code.arrayOf_fits within fits target))

theorem arrayFrom (h : ∀ v ∈ args, v.Fits w) : Lives c w (cx.arrayFrom args) fit := by
  cases args with
  | nil => exact problem _
  | cons first rest =>
    rw [Lowering.arrayFrom]
    refine bind (lift (Q := fit) (elementTy_grants (h first (by simp)).ty fun v member =>
      h v (by simp [member]))) fun w₁ sub₁ of within => ?_
    refine bind (lift (Q := fit) (Ty.mkArray_grants within _)) fun w₂ sub₂ t array => ?_
    refine bind (mapM fun w₃ sub₃ v member => ?_) fun w₃ sub₃ values fits => ?_
    · exact convert ((h v member).mono ((sub₁.trans sub₂).trans sub₃))
        (within.mono (sub₂.trans sub₃).known) cx.target
    · exact arrayValue (array.mono sub₃.known) fits cx.target

theorem arrayLit (abides : cx.Abides c) (items : List Expr) :
    Lives c w (cx.arrayLit items) fit := by
  rw [Lowering.arrayLit_eq]
  exact bind (elements abides items) fun _ _ _ fits => arrayFrom fits

end Lives
end Ember
