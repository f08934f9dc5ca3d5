import Ember.Proofs.Safe.Item
import Ember.Proofs.Safe.Rules
import Ember.Proofs.Steady
import Ember.Proofs.Worlds.Functions

/-!
# Items in their world

Between the parts of an item the program is at rest, and no local name is bound. What a program at
rest keeps to, and in which setting its items are lowered, is a `Discipline`: it lists what has to
hold for lowering to lead from rest to rest. Then whole items do so too.

How values and bodies are lowered is open here (`Lowerings`), for disciplines that need to refuse
some calls.
-/

set_option autoImplicit false

namespace Ember

open Emit

/-! ## Lowering of items -/

/-- How items are lowered: their types and values for a target, and the bodies of functions. -/
structure Lowerings where
  item : Target → Lowering
  body : InstanceKey → Lowering

namespace Lowerings

def usual : Lowerings := ⟨.toTarget, fun key => .toTarget key.target⟩

variable (L : Lowerings)

def structGroup (group : StructGroup) : Emit Unit := do
  let vs ← Item.variants (L.item .js) group.variants
  let structs ← numbering (Struct.declareGroup vs group.matrix)
  structs.forM Item.addStruct
  match structs with
  | first :: _ => Lowering.declareSlots first
  | [] => pure ()

def const (name : Ident) (ty : Option TypeExpr) (value : Expr) : Emit Unit := do
  let (v, ls) ← inBlock ((L.item .js).expr value)
  let v ← match ty with
    | some ty => do expect .js v (← (L.item .js).type ty) value.span
    | none => pure v
  if !v.isConst || !ls.isEmpty then locating value.span (problem .constUnknown)
  modifyProgram fun p => p.modifyScope (·.addConst name.name v)

def param (name : Ident) (ty : TypeExpr) : Emit Unit := do
  let ty ← (L.item .glsl).type ty
  if ty.isVoid then problem (.paramVoid name.name)
  modifyProgram fun p => (p.modifyOutput .glsl fun o =>
    { o with uniforms := o.uniforms ++ [⟨name.name, ty.storage .glsl⟩] }).modifyScope
      (·.addParam name.name ty)

def assert (cond : Expr) (target : Target) : Emit Unit := do
  let (_, ls) ← inBlock ((L.item target).assert cond)
  if target == .js then
    modifyProgram fun p => p.modifyOutput .js fun o => { o with main := o.main ++ ls }

def declaredParams (f : UserFn) : Emit (List Param × ParamTy) := do
  let names := f.decl.params.map (·.name.name)
  if f.decl.generics.isEmpty then
    let (params, ret) ← f.signature (L.item .js) []
    return ((names.zip params).map fun (n, ty) => ⟨n, .exact ty⟩, .exact ret)
  else return (names.map fun n => ⟨n, .any⟩, .any)

def fn (decl : FnDecl) (targets : List Target) : Emit Unit := do
  let (key, display) := Item.fnNames decl.name
  let generic := !decl.generics.isEmpty
  let backend ← if generic then pure none else do pure (some (← fresh key))
  let source ← Item.sourceBlocks decl.body
  let id ← look (·.program.env.own.functions.length)
  let f : UserFn := ⟨id, decl, key, backend, source⟩
  let (params, result) ← L.declaredParams f
  let function : Function := ⟨display, params, result, .user f, decl.generics.length⟩
  modifyProgram fun p => p.modifyScope (·.addFn key function)
  if !generic then
    targets.forM fun target => do
      let _ ← f.instantiate (L.body ⟨f.id, target, []⟩) []

def lower (item : Item) (targets : List Target) : Emit Unit :=
  locating item.span (match item.kind with
    | .empty => defect .itemPlaceholder
    | .useModule _ _ => defect .useUnresolved
    | .structs group => L.structGroup group
    | .const name ty value => L.const name ty value
    | .param name ty => L.param name ty
    | .assert cond => targets.forM (L.assert cond)
    | .fn decl => L.fn decl targets)

theorem lower_usual (item : Item) (targets : List Target) :
    usual.lower item targets = item.lower targets := by
  unfold lower Item.lower structGroup Item.structGroup const Item.const param Item.param assert
    Item.assert fn Item.fn declaredParams Item.declaredParams usual
  rfl

end Lowerings

/-! ## Programs with more declarations -/

namespace Program

def withScope (p : Program) (own : Scope) : Program := p.modifyScope fun _ => own

def withParam (p : Program) (name : String) (ty : Ty) : Program :=
  (p.modifyOutput .glsl fun o =>
    { o with uniforms := o.uniforms ++ [⟨name, ty.storage .glsl⟩] }).modifyScope
      (·.addParam name ty)

def withMain (p : Program) (ls : List Line) : Program :=
  p.modifyOutput .js fun o => { o with main := o.main ++ ls }

variable {g : Ground} {p : Program}

theorem Tidy.withScope (h : p.Tidy g) {own : Scope} (scope : own.Tidy g.known) :
    (p.withScope own).Tidy g :=
  { h with own := scope }

theorem Tidy.withParam (h : p.Tidy g) {name : String} {ty : Ty} (plain : Text.Plain name)
    (within : ty.Within g.known) : (p.withParam name ty).Tidy g :=
  { h with
    own := { h.own with params := List.forall_mem_cons.mpr ⟨⟨plain, within⟩, h.own.params⟩ } }

theorem Tidy.withMain (h : p.Tidy g) (ls : List Line) : (p.withMain ls).Tidy g := { h with }

end Program

theorem Function.constructor_tidy (g : Ground) {s : Struct} (known : g.known s) :
    (Function.constructor s).Tidy g.known := by
  refine ⟨known, fun p member => ?_⟩
  obtain ⟨f, field, rfl⟩ := List.mem_map.mp member
  exact g.fields s known f field

theorem Scope.Tidy.addFn {K : Known} {s : Scope} (h : s.Tidy K) (name : String) {f : Function}
    (tidy : f.Tidy K) : (s.addFn name f).Tidy K :=
  { h with
    functions := List.forall_mem_append.mpr ⟨h.functions, List.forall_mem_singleton.mpr tidy⟩ }

def Function.IsPlain (f : Function) : Prop := ∀ u, f.behaviour ≠ .user u

/-- A scope with nothing new but types, constants and plain functions. -/
structure Scope.Extends (s t : Scope) : Prop where
  params : t.params = s.params
  functions : ∃ new, t.functions = s.functions ++ new ∧ ∀ q ∈ new, q.2.IsPlain

namespace Item

theorem addStructs_tidy (g : Ground) {scope : Scope} {ss : List Struct} (h : scope.Tidy g.known)
    (known : ∀ s ∈ ss, g.known s) : (addStructs scope ss).Tidy g.known := by
  induction ss generalizing scope with
  | nil => exact h
  | cons s ss ih =>
    have own := known s (by simp)
    have typed : (scope.addType s.name (.struct s)).Tidy g.known :=
      { h with types := List.forall_mem_cons.mpr ⟨own, h.types⟩ }
    exact ih (typed.addFn s.name (Function.constructor_tidy g own)) fun t member =>
      known t (by simp [member])

theorem addStructs_extends (scope : Scope) (ss : List Struct) :
    scope.Extends (addStructs scope ss) := by
  induction ss generalizing scope with
  | nil => exact ⟨rfl, [], by simp [addStructs], by simp⟩
  | cons s ss ih =>
    obtain ⟨params, new, functions, plain⟩ :=
      ih ((scope.addType s.name (.struct s)).addFn s.name (.constructor s))
    refine ⟨params, (s.name, .constructor s) :: new, ?_, List.forall_mem_cons.mpr ⟨?_, plain⟩⟩
    · rw [addStructs, List.foldl_cons]
      exact functions.trans (by simp [Scope.addFn, Scope.addType])
    · rintro u ⟨⟩

/-- Structs that got their numbers become known, and GLSL declares them. -/
theorem declareStructs_run (ss : List Struct) (s : Emission) (ids : Ids) :
    (do
      ss.forM addStruct
      match ss with
      | first :: _ => Lowering.declareSlots first
      | [] => pure () : Emit Unit) { s with program := { s.program with ids } } =
    .ok () { s with
      program := s.program.withStructs ids ss (addStructs s.program.env.own ss) } := by
  change EStateM.bind _ _ _ = _
  unfold EStateM.bind
  rw [forM_addStruct]
  cases ss with
  | nil =>
    simp [Program.withStructs, Struct.slotsOf]
    rfl
  | cons t ts =>
    have slots : Struct.slotsOf (t :: ts) = t.glsl.declared? := rfl
    simp only [Lowering.declareSlots, Program.withStructs, slots]
    cases t.glsl.declared? with
    | none =>
      simp only [Option.toList_none, List.append_nil]
      rfl
    | some d => rfl

end Item

/-- The names of functions that are no templates are coined. -/
theorem Program.Tidy.backend_coined {g : Ground} {p : Program} (h : p.Tidy g)
    {q : String × Function} (member : q ∈ p.functions) {f : UserFn}
    (user : q.2.behaviour = .user f) : ∀ name ∈ f.backend, Ids.Coined name := by
  have tidy : q.2.Tidy g.known := by
    rcases List.mem_append.mp member with own | root
    · exact h.own.functions q own
    · exact h.root.functions q root
  have behaviour := tidy.behaviour
  rw [user] at behaviour
  exact behaviour

/-- A function that a program lists. -/
theorem Program.Tidy.instance? {g : Ground} {p : Program} (h : p.Tidy g) {key : InstanceKey}
    {inst : Instance} (found : p.instance? key = some inst) : inst.Tidy g.known := by
  obtain ⟨entry, listed, rfl⟩ := Option.map_eq_some_iff.mp found
  exact h.instances entry (List.mem_of_find?_eq_some listed)

/-! ## Parts of items -/

namespace Lives

variable {c : Setting} {w : World} {cx : Lowering}

theorem itemFields (abides : cx.Abides c) (seen : List String) (fs : List FieldDecl) :
    Lives c w (Item.fields cx seen fs) fun w out => ∀ f ∈ out, f.ty.Within w.known := by
  induction fs generalizing w seen with
  | nil =>
    rw [Item.fields]
    exact pure (by simp)
  | cons f fs ih =>
    rw [Item.fields]
    have rest (w : World) : Lives c w (do
        let ty ← cx.type f.ty
        return ⟨f.name.name, ty⟩ :: (← Item.fields cx (f.name.name :: seen) fs))
        fun w out => ∀ f ∈ out, f.ty.Within w.known := by
      refine bind (type abides f.ty) fun w₁ _ t within => ?_
      refine bind (ih _) fun w₂ sub gs others => pure ?_
      exact List.forall_mem_cons.mpr ⟨Ty.Within.mono sub.known within, others⟩
    split
    · exact bind (locating (problem (Q := fun _ _ => True) _)) fun w₁ _ _ _ => rest w₁
    · exact rest w

theorem itemVariants (abides : cx.Abides c) (ds : List StructDecl) :
    Lives c w (Item.variants cx ds) fun w vs => ∀ v ∈ vs, ∀ f ∈ v.fields, f.ty.Within w.known := by
  induction ds generalizing w with
  | nil =>
    rw [Item.variants]
    exact pure (by simp)
  | cons d ds ih =>
    rw [Item.variants]
    refine bind (look (Q := fun _ _ => True) fun _ _ => trivial) fun w₁ _ types _ => ?_
    have rest (w : World) : Lives c w (do
        let v : Variant := ⟨d.name.name, ← Item.fields cx [] d.fields⟩
        return v :: (← Item.variants cx ds))
        fun w vs => ∀ v ∈ vs, ∀ f ∈ v.fields, f.ty.Within w.known := by
      refine bind (itemFields abides [] d.fields) fun w₁ _ fs within => ?_
      refine bind ih fun w₂ sub vs others => pure ?_
      exact List.forall_mem_cons.mpr
        ⟨fun f member => (within f member).mono sub.known, others⟩
    split
    · exact bind (locating (problem (Q := fun _ _ => True) _)) fun w₂ _ _ _ => rest w₂
    · exact rest w₁

theorem constItem {L : Lowerings} (abides : (L.item .js).Abides c) (name : Ident)
    (ty : Option TypeExpr) (value : Expr) : Lives c w (L.const name ty value) fit := by
  have rest (w : World) (v : Value) (ls : List Line) (within : v.ty.Within w.known) :
      Lives c w (do
        if !v.isConst || !ls.isEmpty then
          Emit.locating value.span (Emit.problem .constUnknown)
        Emit.modifyProgram fun p => p.modifyScope (·.addConst name.name v)) fit := by
    split
    · exact bind (locating (problem (Q := fun _ _ => False) _)) fun _ _ _ no => no.elim
    · rename_i known
      simp only [Bool.or_eq_true, Bool.not_eq_true', not_or, Bool.not_eq_false] at known
      refine modifyProgram fun p tidy => ⟨?_, tidy.withScope { tidy.own with
        consts := List.forall_mem_cons.mpr ⟨⟨known.1, within⟩, tidy.own.consts⟩ }⟩
      exact ⟨le_rfl, rfl, rfl, rfl, fun t => by cases t <;> rfl, rfl, rfl, rfl, fun _ => id⟩
  unfold Lowerings.const
  refine bind (inBlock (abides.expr w value)) fun w₁ _ found fits => ?_
  obtain ⟨v, ls⟩ := found
  dsimp only
  cases ty with
  | some ty =>
    refine bind (type abides ty) fun w₂ sub t within => ?_
    -- the variables of the block are out of scope, but what is converted is only looked at
    have inner : v.Fits (w₂.plus (Line.declared ls)) := fits.2.mono (sub.plus _)
    have converted : Lives c w₂ (Emit.expect .js v t value.span) fun w u =>
        u.ty.Within w.known :=
      locating (lift ((v.convert_grants inner within .js).imp fun _ fits => fits.ty))
    exact bind converted fun w₃ _ u within => rest w₃ u ls within
  | none =>
    dsimp only
    rw [pure_bind]
    exact rest w₁ v ls fits.2.ty

theorem assertBlock (abides : cx.Abides c) (cond : Expr) :
    Lives c w (Emit.inBlock (cx.assert cond)) fun w' p =>
      w'.names = w.names ∧ Line.AllFit w' p.2 := by
  refine (inBlockWith [] (by simpa using assert abides cond)).mono fun w' _ p fits => ?_
  simpa using (And.intro fits.1 fits.2.1)

/-- What a declared function takes. -/
theorem declaredParams {L : Lowerings} (abides : (L.item .js).Abides c) (f : UserFn) :
    Lives c w (L.declaredParams f) fun w p => ∀ q ∈ p.1, q.ty.Within w.known := by
  unfold Lowerings.declaredParams
  dsimp only
  split
  · refine bind (signature abides (by simp)) fun w₁ _ types fits => pure ?_
    intro q member
    obtain ⟨⟨n, t⟩, zipped, rfl⟩ := List.mem_map.mp member
    exact fits.1 t (List.of_mem_zip zipped).2
  · refine pure fun q member => ?_
    obtain ⟨n, _, rfl⟩ := List.mem_map.mp member
    trivial

end Lives

/-! ## Disciplines -/

/-- The name that a function is declared with, and the program then. -/
inductive Program.Reserves (p : Program) (key : String) : Option String → Program → Prop
  | template : Reserves p key none p
  | own : Reserves p key (some (p.ids.fresh key).1) { p with ids := (p.ids.fresh key).2 }

theorem Program.Reserves.adds {p q : Program} {key : String} {backend : Option String}
    (h : p.Reserves key backend q) : p.Adds q := by
  cases h with
  | template => exact p.adds_numbered le_rfl
  | own => exact p.adds_numbered (Nat.le_succ _)

/-- What a program keeps to at rest, the values from outside that may be declared, and the settings
in which items are lowered. -/
structure Discipline (L : Lowerings) where
  Keeps : Program → Prop
  Admits : String → Prop
  setting : Target → Program → Setting
  target : ∀ t p, (setting t p).target = t
  outside : ∀ t p, (setting t p).outside = p.Sees t
  steady : ∀ t, (L.item t).IsSteady
  steadyBody : ∀ key, (L.body key).IsSteady
  declared : ∀ {t p}, Keeps p → ∀ q ∈ p.functions, ∀ f, q.2.behaviour = .user f →
    (setting t p).declared f
  start : ∀ {t p}, Keeps p → (setting t p).Holds p
  rest : ∀ {t p q}, Keeps p → (setting t p).Holds q → Keeps q
  abides : ∀ {t p}, Keeps p → (L.item t).Abides (setting t p)
  adds : ∀ {p q}, Keeps p → p.Adds q → Keeps q
  scope : ∀ {p own}, Keeps p → p.env.own.Extends own → Keeps (p.withScope own)
  param : ∀ {p} {name : String} {ty : Ty}, Keeps p → Admits name →
    (∀ id ∈ (ty.storage .glsl).ids, p.Declares id) → Keeps (p.withParam name ty)
  main : ∀ {p q ls}, Keeps p → (setting .js p).Holds q →
    Line.AllScoped (fun names u => u.Ok ((setting .js p).calls q) q.Declares names)
      (q.Sees .js) ls →
    Keeps (q.withMain ls)
  fn : ∀ {p p' q : Program} {key : String} {function : Function} {f : UserFn}, Keeps p →
    p.Reserves key f.backend p' → (setting .js p').Holds q →
    f.id = q.env.own.functions.length → function.behaviour = .user f →
    Keeps (q.withScope (q.env.own.addFn key function))
  writes : ∀ {t p q} {f : UserFn}, Keeps p → q ∈ p.env.own.functions → q.2.behaviour = .user f →
    ∃ H, ∃ writes : (setting t p).Writes f.backend ⟨f.id, t, []⟩ H,
      ∀ q, (L.body ⟨f.id, t, []⟩).Abides ((setting t p).keeping (H q) writes.adds)

namespace Discipline

variable {L : Lowerings} (D : Discipline L)

structure Ready (p : Program) : Prop where
  keeps : D.Keeps p
  tidy : ∃ g, p.Tidy g

structure Rests (s : Emission) : Prop extends D.Ready s.program where
  locals : s.frame.level.locals = []
  outer : s.frame.outer = []
  typeParams : s.frame.typeParams = []

variable {D} {α : Type} {t : Target} {s : Emission}

/-- Lowering for a target starts in a world that knows nothing but the values from outside. -/
theorem Rests.inside (h : D.Rests s) (t : Target) :
    ∃ w, s.In (D.setting t s.program) w ∧ w.names = s.program.Sees t := by
  obtain ⟨g, tidy⟩ := h.tidy
  refine ⟨⟨g, (D.setting t s.program).calls s.program, s.program.Sees t⟩, ⟨tidy, fun _ => .rfl, ?_,
    D.declared h.keeps, ?_, D.start h.keeps, ?_, ?_, ?_⟩, rfl⟩
  · intro x
    rw [D.outside, D.target]
    exact .rfl
  · intro x
    rw [D.outside]
    exact id
  · intro p member
    simp [h.locals] at member
  · simp [h.outer]
  · simp [h.typeParams]

/-- What a program sees stays. -/
theorem sees_eq {p : Program} {w : World} (inside : s.In (D.setting t p) w) :
    s.program.Sees t = p.Sees t := by
  funext x
  have same := inside.externals x
  rw [D.outside, D.target] at same
  exact propext same.symm

theorem ready_of_inside {p : Program} {w : World} (keeps : D.Keeps p)
    (inside : s.In (D.setting t p) w) : D.Ready s.program :=
  ⟨D.rest keeps inside.holds, w.toGround, inside.tidy⟩

/-- Lowering leads from rest to a program that is ready. -/
theorem Rests.lives {act : Emit α} {Q : World → α → Prop} (h : D.Rests s)
    (lives : ∀ w, w.names = s.program.Sees t → Lives (D.setting t s.program) w act Q) :
    Ends act s (fun a u => ∃ w, u.In (D.setting t s.program) w ∧ D.Ready u.program ∧ Q w a)
      (fun _ _ => True) := by
  obtain ⟨w, inside, names⟩ := h.inside t
  refine (lives w names s inside).mono ?_ fun _ _ => id
  rintro a u ⟨w', _, _, _, state, holds⟩
  exact ⟨w', state, ready_of_inside h.keeps state, holds⟩

/-- Steady lowering leads from rest to rest. -/
theorem Rests.lives_steady {act : Emit α} {Q : World → α → Prop} (h : D.Rests s)
    (lives : ∀ w, w.names = s.program.Sees t → Lives (D.setting t s.program) w act Q)
    (steady : Steady true act) :
    Ends act s (fun a u => s.program.Before u.program ∧ D.Rests u ∧
      ∃ w, u.In (D.setting t s.program) w ∧ Q w a) (fun _ _ => True) := by
  have ends := h.lives lives
  unfold Ends at *
  cases run : act s with
  | error f u => trivial
  | ok a u =>
    rw [run] at ends
    obtain ⟨w, state, ready, holds⟩ := ends
    obtain ⟨before, typeParams, outer, locals⟩ := steady.ok run
    exact ⟨before, ⟨ready, (locals rfl).trans h.locals, outer.trans h.outer,
      typeParams.trans h.typeParams⟩, w, state, holds⟩

/-- What is changed in the program while it is at rest. -/
theorem Rests.modified (h : D.Rests s) {p : Program} (ready : D.Ready p) :
    D.Rests { s with program := p } :=
  ⟨ready, h.locals, h.outer, h.typeParams⟩

/-! ## Items -/

namespace Rests

theorem structGroup (h : D.Rests s) (group : StructGroup) :
    Ends (L.structGroup group) s (fun _ u => D.Ready u.program) (fun _ _ => True) := by
  unfold Lowerings.structGroup
  refine Ends.bind ((h.lives fun w _ => Lives.itemVariants (D.abides h.keeps) group.variants).mono
    (fun vs u found => ?_) fun _ _ => id)
  obtain ⟨w, inside, ready, within⟩ := found
  have ends := Struct.declareGroup_together (K := w.known) group.matrix within u.program.ids
  refine Ends.bind ?_
  unfold Ends Emit.numbering at *
  cases run : Struct.declareGroup vs group.matrix u.program.ids with
  | error f ids => trivial
  | ok ss ids =>
    rw [run] at ends
    obtain ⟨more, together⟩ := ends
    have new (s : Struct) (member : s ∈ ss) : (w.toGround.add together).known s := .inr member
    have added := Item.addStructs_tidy (w.toGround.add together)
      (inside.tidy.own.mono (w.known.subset_add ss)) new
    have grown : u.program.Adds (u.program.withStructs ids ss u.program.env.own) :=
      Program.adds_withStructs more.le rfl rfl
    have keeps := D.scope (D.adds ready.keeps grown)
      (Item.addStructs_extends u.program.env.own ss)
    have declared := Item.declareStructs_run ss u ids
    dsimp only
    rw [declared]
    exact ⟨keeps, _, inside.tidy.withStructs together more added⟩

theorem const (h : D.Rests s) (name : Ident) (ty : Option TypeExpr) (value : Expr) :
    Ends (L.const name ty value) s (fun _ u => D.Ready u.program) (fun _ _ => True) := by
  refine (h.lives fun w _ => Lives.constItem (D.abides h.keeps) name ty value).mono
    (fun _ u found => ?_) fun _ _ => id
  obtain ⟨_, _, ready, _⟩ := found
  exact ready

theorem param (h : D.Rests s) {name : Ident} (plain : Text.Plain name.name)
    (admitted : D.Admits name.name) (ty : TypeExpr) :
    Ends (L.param name ty) s (fun _ u => D.Ready u.program) (fun _ _ => True) := by
  unfold Lowerings.param
  refine Ends.bind ((h.lives fun w _ => Lives.type (D.abides h.keeps) ty).mono
    (fun t u found => ?_) fun _ _ => id)
  obtain ⟨w, inside, ready, within⟩ := found
  dsimp only
  split
  · trivial
  · have stored : ∀ id ∈ (t.storage .glsl).ids, u.program.Declares id := fun id member =>
      inside.tidy.structs id (w.toGround.stored_within within id member)
    exact ⟨D.param ready.keeps admitted stored, _, inside.tidy.withParam plain within⟩

theorem assert (h : D.Rests s) (cond : Expr) (target : Target) :
    Ends (L.assert cond target) s (fun _ u => D.Rests u) (fun _ _ => True) := by
  have steady := D.steady target
  unfold Lowerings.assert
  refine Ends.bind ((h.lives_steady (fun w names => (Lives.assertBlock (D.abides h.keeps) cond).mono
    fun w' _ p fits => And.intro (fits.1.trans names) fits.2)
    (Steady.inBlock (Steady.assert cond))).mono (fun p u found => ?_) fun _ _ => id)
  obtain ⟨_, rests, w, inside, names, fits⟩ := found
  obtain ⟨_, ls⟩ := p
  dsimp only
  cases target with
  | glsl => exact rests
  | js =>
    refine rests.modified ⟨D.main h.keeps inside.holds ?_, _, (inside.tidy.withMain ls)⟩
    rw [Line.AllFit, names] at fits
    rw [D.sees_eq inside]
    have weaker (ns ms : Names) (use : Line.Use) (sub : ∀ x, ns x → ms x) (fits : w.Uses ns use) :
        use.Ok ((D.setting .js s.program).calls u.program) u.program.Declares ms :=
      fits.mono (fun f => (inside.calls f).mp) inside.tidy.structs sub
    exact Line.AllScoped.mono weaker ls (fun _ => id) fits

theorem asserts (h : D.Rests s) (cond : Expr) (targets : List Target) :
    Ends (targets.forM (L.assert cond)) s (fun _ u => D.Rests u) (fun _ _ => True) := by
  induction targets generalizing s with
  | nil => exact h
  | cons target targets ih =>
    exact Ends.bind ((h.assert cond target).mono (fun _ u rests => ih rests) fun _ _ => id)

theorem sourceBlocks (body : Block) :
    Ends (Item.sourceBlocks body) s (fun _ t => t = s) (fun _ _ => True) := by
  unfold Item.sourceBlocks
  split
  · rfl
  · rfl
  · trivial

theorem steadyParams [(L.item .js).IsSteady] (f : UserFn) : Steady true (L.declaredParams f) := by
  unfold Lowerings.declaredParams
  dsimp only
  split
  · exact Steady.bind (Steady.signature f []) fun _ => Steady.pure _
  · exact Steady.pure _

theorem instantiate {q : String × Function} {f : UserFn} (h : D.Rests s)
    (member : q ∈ s.program.env.own.functions) (user : q.2.behaviour = .user f) (target : Target) :
    Ends (f.instantiate (L.body ⟨f.id, target, []⟩) []) s
      (fun _ u => s.program.Before u.program ∧ D.Rests u) (fun _ _ => True) := by
  have steady := D.steadyBody ⟨f.id, target, []⟩
  obtain ⟨H, writes, abides⟩ := D.writes (t := target) h.keeps member user
  have listed : (D.setting target s.program).Writes f.backend
      ⟨f.id, (L.body ⟨f.id, target, []⟩).target, []⟩ H := by
    rw [(abides s.program).target, Setting.keeping, D.target]
    exact writes
  obtain ⟨g, tidy⟩ := h.tidy
  have coined := tidy.backend_coined (List.mem_append_left _ member) user
  refine (h.lives_steady (fun w _ => Lives.instantiate (abides s.program).target listed abides
    coined (by simp)) (Steady.instantiate f [])).mono ?_ fun _ _ => id
  exact fun _ u found => ⟨found.1, found.2.1⟩

theorem instances {q : String × Function} {f : UserFn} (h : D.Rests s)
    (member : q ∈ s.program.env.own.functions) (user : q.2.behaviour = .user f)
    (targets : List Target) :
    Ends (targets.forM fun target => do
      let _ ← f.instantiate (L.body ⟨f.id, target, []⟩) []) s
      (fun _ u => D.Ready u.program) (fun _ _ => True) := by
  induction targets generalizing s with
  | nil => exact h.toReady
  | cons target targets ih =>
    refine Ends.bind (Ends.bind ((h.instantiate member user target).mono ?_ fun _ _ => id))
    rintro _ u ⟨before, rests⟩
    exact ih rests (before.functions ▸ member)

/-- A function is declared when its types are known. -/
theorem declared {p p' : Program} {key : String} {f : UserFn} {w : World} (h : D.Rests s)
    (function : Function) (keeps : D.Keeps p) (reserves : p.Reserves key f.backend p')
    (inside : s.In (D.setting .js p') w) (id : f.id = s.program.env.own.functions.length)
    (user : function.behaviour = .user f) (coined : ∀ name ∈ f.backend, Ids.Coined name)
    (within : ∀ q ∈ function.params, q.ty.Within w.known) :
    D.Rests { s with program := s.program.withScope (s.program.env.own.addFn key function) } := by
  have tidy : function.Tidy w.known := by
    refine ⟨?_, within⟩
    rw [user]
    exact coined
  exact h.modified ⟨D.fn keeps reserves inside.holds id user, w.toGround,
    inside.tidy.withScope (inside.tidy.own.addFn key tidy)⟩

/-- A function that has its name: it is declared, and written for the targets if it is no
template. -/
theorem namedFn {p : Program} {decl : FnDecl} {backend : Option String} (keeps : D.Keeps p)
    (reserves : p.Reserves (Item.fnNames decl.name).1 backend s.program) (h : D.Rests s)
    (coined : ∀ name ∈ backend, Ids.Coined name) (targets : List Target) :
    Ends (do
      let source ← Item.sourceBlocks decl.body
      let id ← Emit.look (·.program.env.own.functions.length)
      let f : UserFn := ⟨id, decl, (Item.fnNames decl.name).1, backend, source⟩
      let (params, result) ← L.declaredParams f
      let function : Function :=
        ⟨(Item.fnNames decl.name).2, params, result, .user f, decl.generics.length⟩
      Emit.modifyProgram fun p => p.modifyScope (·.addFn (Item.fnNames decl.name).1 function)
      if !!decl.generics.isEmpty then
        targets.forM fun target => do
          let _ ← f.instantiate (L.body ⟨f.id, target, []⟩) [] : Emit Unit) s
      (fun _ u => D.Ready u.program) (fun _ _ => True) := by
  refine Ends.bind ((sourceBlocks decl.body).mono (fun source t same => ?_) fun _ _ => id)
  rw [same]
  refine Ends.bind_run rfl ?_
  dsimp only
  have steady := D.steady .js
  refine Ends.bind ((h.lives_steady (fun w _ => Lives.declaredParams (D.abides h.keeps) _)
    (steadyParams _)).mono (fun types u found => ?_) fun _ _ => id)
  obtain ⟨before, rests, w, inside, within⟩ := found
  obtain ⟨params, result⟩ := types
  refine Ends.bind_run rfl ?_
  have declared := rests.declared ⟨(Item.fnNames decl.name).2, params, result,
    .user ⟨s.program.env.own.functions.length, decl, (Item.fnNames decl.name).1, backend, source⟩,
    decl.generics.length⟩ keeps reserves inside (by rw [before.functions]) rfl coined within
  split
  · exact declared.instances (List.mem_append_right _ List.mem_cons_self) rfl targets
  · exact declared.toReady

theorem fn (h : D.Rests s) (decl : FnDecl) (targets : List Target) :
    Ends (L.fn decl targets) s (fun _ u => D.Ready u.program) (fun _ _ => True) := by
  unfold Lowerings.fn
  dsimp only
  split
  · rw [pure_bind]
    exact namedFn h.keeps .template h (by simp) targets
  · refine Ends.bind_run rfl ?_
    rw [pure_bind]
    have grown := s.program.adds_numbered (Nat.le_succ s.program.ids.next)
    obtain ⟨g, tidy⟩ := h.tidy
    have ready : D.Ready
        { s.program with ids := (s.program.ids.fresh (Item.fnNames decl.name).1).2 } :=
      ⟨D.adds h.keeps grown, g, tidy.numbered grown.ids⟩
    refine namedFn h.keeps .own (h.modified ready) ?_ targets
    rintro _ ⟨⟩
    exact Ids.coined_fresh _ _

theorem lower (h : D.Rests s) (item : Item)
    (params : ∀ name ty, item.kind = .param name ty → Text.Plain name.name ∧ D.Admits name.name)
    (targets : List Target) :
    Ends (L.lower item targets) s (fun _ u => D.Ready u.program) (fun _ _ => True) := by
  unfold Lowerings.lower
  refine Ends.locating item.span ?_
  cases kind : item.kind with
  | empty => trivial
  | useModule name span => trivial
  | structs group => exact h.structGroup group
  | const name ty value => exact h.const name ty value
  | param name ty => exact h.param (params name ty kind).1 (params name ty kind).2 ty
  | assert cond =>
    exact (h.asserts cond targets).mono (fun _ _ rests => rests.toReady) fun _ _ => id
  | fn decl => exact h.fn decl targets

end Rests
end Discipline
end Ember
