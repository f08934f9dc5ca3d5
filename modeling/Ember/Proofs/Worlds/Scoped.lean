import Ember.Proofs.ParamNames
import Ember.Proofs.Safe.Start
import Ember.Proofs.Worlds.Items

/-!
# Programs whose code is in scope

A program starts from the prelude, which is made of types that GLSL has itself. Each item leaves
functions that mention no coined variable but those in scope, and no struct that GLSL does not
declare. So do all items of texts without issues.
-/

set_option autoImplicit false

namespace Ember

/-! ## The prelude -/

def Struct.isNativeVector (s : Struct) : Bool :=
  s.glsl.storage.ids.isEmpty && s.fields.all (·.ty.isScalar)

/-- Whether GLSL has a struct itself: it is a vector or a matrix, or keeps nothing. -/
def Struct.isNative (s : Struct) : Bool :=
  s.glsl.storage.ids.isEmpty && s.fields.all fun f =>
    match f.ty with
    | .scalar _ => true
    | .struct t => t.isNativeVector
    | .array _ _ | .alt _ _ => false

def Ty.isNative : Ty → Bool
  | .scalar _ => true
  | .struct s => s.isNative
  | .array _ _ | .alt _ _ => false

def ParamTy.isNative : ParamTy → Bool
  | .exact ty => ty.isNative
  | .vector _ | .any => true

def Behaviour.isNative : Behaviour → Bool
  | .construct s => s.isNative
  | .splat ty => ty.isNative
  | .user _ => false
  | .matrixProduct | .map _ | .reduce _ | .count | .normalize | .cast _ _ => true

/-- Whether a scope has nothing but types and functions, made of what GLSL has itself. -/
def Scope.isNative (s : Scope) : Bool :=
  s.types.all (·.2.isNative) &&
  s.functions.all (fun f => f.2.behaviour.isNative && f.2.params.all (·.ty.isNative)) &&
  s.consts.isEmpty && s.params.isEmpty && s.symbols.isEmpty && s.anon.isEmpty

def Program.isNativeStart (p : Program) : Bool :=
  p.env.root.isNative && p.builtins.void.isNative && p.builtins.vectors.all (·.2.isNative)

theorem Program.isNative_start : Program.start.toOption.any Program.isNativeStart = true := by
  decide +kernel

def Known.native (K : Known) : Known := fun s => K s ∧ s.isNative = true

theorem Struct.isNative_of_vector {s : Struct} (h : s.isNativeVector = true) :
    s.isNative = true := by
  simp only [isNativeVector, isNative, Bool.and_eq_true, List.all_eq_true] at h ⊢
  refine ⟨h.1, fun f member => ?_⟩
  have scalar := h.2 f member
  cases ty : f.ty with
  | scalar k => rfl
  | struct t => simp [ty, Ty.isScalar, Ty.scalarKind?] at scalar
  | array of len => simp [ty, Ty.isScalar, Ty.scalarKind?] at scalar
  | alt first others => simp [ty, Ty.isScalar, Ty.scalarKind?] at scalar

theorem Ty.Over.native {K : Known} {t : Ty} (valid : t.Over K) (native : t.isNative = true) :
    t.Within K.native := by
  cases t with
  | scalar k => trivial
  | struct s => exact ⟨valid, native⟩
  | array of len => cases native
  | alt first others => cases native

theorem Struct.isNative_field {K : Known} (closed : K.Closed) {s : Struct} (known : K.native s)
    {f : Field} (member : f ∈ s.fields) : f.ty.Within K.native := by
  have valid := closed.fields s known.1 f member
  have native := known.2
  simp only [isNative, Bool.and_eq_true, List.all_eq_true] at native
  have field := native.2 f member
  cases ty : f.ty with
  | scalar k => trivial
  | struct t =>
    rw [ty] at valid field
    exact ⟨valid, Struct.isNative_of_vector field⟩
  | array of len => simp [ty] at field
  | alt first others => simp [ty] at field

def Ground.native {K : Known} (closed : K.Closed) : Ground where
  structs _ := False
  known := K.native
  laid s known := closed.laid s known.1
  fields _ known _ member := Struct.isNative_field closed known member
  stored s known id member := by
    have native := known.2
    simp only [Struct.isNative, Bool.and_eq_true, List.isEmpty_iff] at native
    simp [native.1] at member

theorem Behaviour.Fits.native {K : Known} {params : List ParamTy} {b : Behaviour}
    (fits : b.Fits K params) (native : b.isNative = true) : b.Tidy K.native := by
  cases fits with
  | construct known => exact ⟨known, native⟩
  | splat known _ => exact ⟨known, native⟩
  | user _ _ => cases native
  | _ => trivial

theorem Function.Over.native {K : Known} (closed : K.Closed) {f : Function} (valid : f.Over K)
    (behaviour : f.behaviour.isNative = true) (params : f.params.all (·.ty.isNative) = true) :
    f.Tidy K.native := by
  refine ⟨Behaviour.Fits.native valid behaviour, fun p member => ?_⟩
  have native := List.all_eq_true.mp params p member
  have valid := Behaviour.Fits.params_over closed valid p.ty (List.mem_map_of_mem member)
  cases ty : p.ty with
  | exact t =>
    rw [ty] at native valid
    exact Ty.Over.native valid native
  | vector k => trivial
  | any => trivial

theorem Scope.tidy_empty (K : Known) : Scope.Tidy K {} :=
  ⟨by simp, by simp, by simp, by simp, by simp, by simp⟩

theorem Scope.Over.native {K : Known} (closed : K.Closed) {s : Scope} (valid : s.Over K)
    (native : s.isNative = true) : s.Tidy K.native := by
  simp only [Scope.isNative, Bool.and_eq_true, List.isEmpty_iff, List.all_eq_true] at native
  obtain ⟨⟨⟨⟨⟨types, functions⟩, consts⟩, params⟩, symbols⟩, anon⟩ := native
  refine ⟨fun p member => (valid.types p member).native (types p member), fun p member => ?_,
    by simp [consts], by simp [params], by simp [symbols], by simp [anon]⟩
  have native := functions p member
  exact (valid.functions p member).native closed native.1 (List.all_eq_true.mpr native.2)

structure Program.IsBare (p : Program) : Prop where
  own : p.env.own = {}
  js : p.js = {}
  glsl : p.glsl = {}
  instances : p.instances = []

namespace Program

variable {p : Program} (start : Program.start = .ok p)

include start

theorem isBare_of_start : p.IsBare := by
  unfold Program.start at start
  split at start
  · cases start
    exact ⟨rfl, rfl, rfl, rfl⟩
  · cases start

theorem isNative_of_start : p.isNativeStart = true := by
  have native := isNative_start
  rwa [start] at native

theorem root_params_of_start : p.env.root.params = [] := by
  have native := isNative_of_start start
  simp only [Program.isNativeStart, Scope.isNative, Bool.and_eq_true, List.isEmpty_iff] at native
  exact native.1.1.1.1.2

theorem tidy_of_start : ∃ g, p.Tidy g := by
  obtain ⟨K, valid⟩ := start_over start
  have native := isNative_of_start start
  simp only [Program.isNativeStart, Bool.and_eq_true, List.all_eq_true] at native
  obtain ⟨⟨root, void⟩, vectors⟩ := native
  obtain ⟨own, _, glsl, instances⟩ := isBare_of_start start
  obtain ⟨s, unit, known, _⟩ := valid.builtins.void
  have kept : p.builtins.void.Over K := unit ▸ known
  exact ⟨.native valid.closed, own ▸ Scope.tidy_empty _, valid.root.native valid.closed root,
    kept.native void, fun q member => (valid.builtins.vectors q member).1.native (vectors q member),
    by simp [instances], fun _ no => no.elim, by simp [glsl, SlotStruct.Ordered], by simp [glsl]⟩

end Program

/-! ## Programs in scope -/

/-- A program whose lines mention no coined variable that is not in scope and no struct that is not
declared, with a uniform for each value from outside. -/
structure Program.Scoped (p : Program) : Prop where
  functions : ∀ t, ∀ code ∈ (p.output t).functions,
    code.Scoped (fun _ => True) p.Declares (p.Sees t)
  main : Line.AllScoped (fun names u => u.Ok (fun _ => True) p.Declares names) (p.Sees .js)
    p.js.main
  uniforms : p.glsl.uniforms = p.params.reverse.map fun q => ⟨q.1, q.2.storage .glsl⟩
  stored : ∀ u ∈ p.glsl.uniforms, ∀ id ∈ u.storage.ids, p.Declares id

namespace Program

variable {p q : Program}

theorem scoped_of_start (start : Program.start = .ok p) : p.Scoped := by
  obtain ⟨own, js, glsl, _⟩ := isBare_of_start start
  have root := root_params_of_start start
  refine ⟨fun t => ?_, ?_, ?_, by simp [glsl]⟩
  · cases t <;> simp [Program.output, js, glsl]
  · simp [js, Line.AllScoped]
  · simp [glsl, Program.params, own, root]

/-- The values from outside of a program with one more. -/
theorem params_withParam (p : Program) (name : String) (ty : Ty) :
    (p.withParam name ty).params = (name, ty) :: p.params := rfl

theorem sees_withParam (p : Program) (name : String) (ty : Ty) (t : Target) {x : String}
    (h : p.Sees t x) : (p.withParam name ty).Sees t x := by
  obtain ⟨q, member, rfl⟩ := h
  exact ⟨q, List.mem_cons_of_mem _ member, rfl⟩

namespace Scoped

theorem main_mono (h : p.Scoped) (structs : ∀ id, p.Declares id → q.Declares id)
    (sees : ∀ x, p.Sees .js x → q.Sees .js x) :
    Line.AllScoped (fun names u => u.Ok (fun _ => True) q.Declares names) (q.Sees .js)
      p.js.main :=
  Line.AllScoped.mono (fun _ _ _ sub ok => ok.mono (fun _ => id) structs sub) _ sees h.main

/-- A program that writes the same, and declares no fewer structs. -/
theorem move (h : p.Scoped) (functions : ∀ t, (q.output t).functions = (p.output t).functions)
    (main : q.js.main = p.js.main) (uniforms : q.glsl.uniforms = p.glsl.uniforms)
    (params : q.params = p.params) (structs : ∀ id, p.Declares id → q.Declares id) : q.Scoped := by
  have sees (t : Target) : q.Sees t = p.Sees t := by
    unfold Program.Sees
    rw [params]
  refine ⟨fun t code member => ?_, ?_, ?_, fun u member id inside => ?_⟩
  · rw [functions t] at member
    rw [sees t]
    exact (h.functions t code member).mono (fun _ => id) structs fun _ => id
  · rw [main]
    exact h.main_mono structs fun x => sees .js ▸ id
  · rw [uniforms, params]
    exact h.uniforms
  · rw [uniforms] at member
    exact structs id (h.stored u member id inside)

theorem adds (h : p.Scoped) (adds : p.Adds q) : q.Scoped := by
  refine h.move adds.outputs adds.main adds.uniforms adds.params fun id declared => ?_
  obtain ⟨d, member, same⟩ := declared
  exact ⟨d, adds.structs d member, same⟩

theorem withScope (h : p.Scoped) {own : Scope} (params : own.params = p.env.own.params) :
    (p.withScope own).Scoped := by
  refine h.move (fun t => by cases t <;> rfl) rfl rfl ?_ fun _ => id
  exact congrArg (· ++ p.env.root.params) params

theorem listing (h : p.Scoped) (key : InstanceKey) (inst : Instance) :
    (p.listing key inst).Scoped :=
  h.move (fun t => by cases t <;> rfl) rfl rfl rfl fun _ => id

theorem withParam (h : p.Scoped) (name : String) {ty : Ty}
    (stored : ∀ id ∈ (ty.storage .glsl).ids, p.Declares id) : (p.withParam name ty).Scoped := by
  refine ⟨fun t code member => ?_, h.main_mono (fun _ => id) fun _ => p.sees_withParam name ty .js,
    ?_, fun u member id inside => ?_⟩
  · have same : ((p.withParam name ty).output t).functions = (p.output t).functions := by
      cases t <;> rfl
    rw [same] at member
    exact (h.functions t code member).mono (fun _ => id) (fun _ => id) fun _ =>
      p.sees_withParam name ty t
  · have more : (p.withParam name ty).glsl.uniforms =
        p.glsl.uniforms ++ [⟨name, ty.storage .glsl⟩] := rfl
    rw [more, params_withParam, h.uniforms]
    simp
  · rcases List.mem_append.mp member with old | new
    · exact h.stored u old id inside
    · cases List.mem_singleton.mp new
      exact stored id inside

theorem withMain (h : p.Scoped) {ls : List Line}
    (lines : Line.AllScoped (fun names u => u.Ok (fun _ => True) p.Declares names) (p.Sees .js)
      ls) :
    (p.withMain ls).Scoped := by
  refine ⟨fun t => ?_, Line.allScoped_append.mpr ⟨h.main, ?_⟩, h.uniforms, h.stored⟩
  · cases t with
    | js => exact h.functions .js
    | glsl => exact h.functions .glsl
  · exact Line.AllScoped.mono (fun _ _ _ sub ok => ok.mono (fun _ => id) (fun _ => id) sub) ls
      (fun _ => .inl) lines

theorem writing (h : p.Scoped) (target : Target) {code : FnCode}
    (fits : code.Scoped (fun _ => True) p.Declares (p.Sees target)) :
    (p.writing target code).Scoped := by
  cases target with
  | js =>
    refine ⟨fun t => ?_, h.main, h.uniforms, h.stored⟩
    cases t with
    | js => exact List.forall_mem_append.mpr ⟨h.functions .js, List.forall_mem_singleton.mpr fits⟩
    | glsl => exact h.functions .glsl
  | glsl =>
    refine ⟨fun t => ?_, h.main, h.uniforms, h.stored⟩
    cases t with
    | js => exact h.functions .js
    | glsl =>
      exact List.forall_mem_append.mpr ⟨h.functions .glsl, List.forall_mem_singleton.mpr fits⟩

end Scoped
end Program

/-! ## Lowering in scope -/

structure Program.ScopedAs (p q : Program) : Prop where
  inScope : q.Scoped
  params : q.params = p.params

namespace Program.ScopedAs

variable {p q r : Program}

theorem adds (h : p.ScopedAs q) (adds : q.Adds r) : p.ScopedAs r :=
  ⟨h.inScope.adds adds, adds.params.trans h.params⟩

theorem listing (h : p.ScopedAs q) (key : InstanceKey) (inst : Instance) :
    p.ScopedAs (q.listing key inst) := ⟨h.inScope.listing key inst, h.params⟩

theorem writing (h : p.ScopedAs q) (target : Target) {code : FnCode}
    (fits : code.Scoped (fun _ => True) q.Declares (q.Sees target)) :
    p.ScopedAs (q.writing target code) :=
  ⟨h.inScope.writing target fits, (q.params_writing target code).trans h.params⟩

end Program.ScopedAs

/-- Lowering while all functions are in scope and any may be called. -/
def Setting.scoping (target : Target) (p : Program) : Setting where
  target
  outside := p.Sees target
  declared _ := True
  calls _ _ := True
  Holds := p.ScopedAs
  calls_adds _ _ := .rfl
  holds_adds adds h := h.adds adds

/-- A name costs a number at most. -/
theorem Program.Names.adds {own : Option String} {types : List Ty} {p q : Program} {name : String}
    (h : p.Names own types name q) : p.Adds q := by
  cases h with
  | own _ _ => exact p.adds_numbered le_rfl
  | fresh stem => exact p.adds_numbered (Nat.le_succ _)

theorem Setting.scoping_writes (target : Target) (p : Program) (own : Option String)
    (key : InstanceKey) :
    (Setting.scoping target p).Writes own key fun _ q => p.ScopedAs q where
  adds h adds := h.adds adds
  start := id
  back _ := id
  listed _ _ := trivial
  list _ _ reached named := ⟨(reached.adds named.adds).listing key _, fun _ => id⟩
  write _ _ _ _ reached _ fits := ⟨reached.writing target fits, trivial, fun _ => id⟩

theorem Lowering.ofDepth_scoping (target : Target) (p : Program) (n : Nat) :
    (Lowering.ofDepth target n).Abides (.scoping target p) := by
  induction n with
  | zero =>
    exact ⟨rfl, fun _ _ => .locating (.throw _), fun _ _ => .locating (.throw _),
      fun _ _ _ _ _ test hy hn => .joinSides test hy hn _ _,
      fun _ _ _ _ _ _ _ _ _ => .locating (.throw _)⟩
  | succ n ih =>
    refine ⟨rfl, fun _ e => .exprStep ih e, fun _ b => .blockStep ih b,
      fun _ _ _ _ _ test hy hn => .joinSides test hy hn _ _, ?_⟩
    intro w f args typeArgs span _ coined fits within
    exact .userCall ih.target (Setting.scoping_writes target p f.backend _) (fun _ => ih) coined
      within fits span

def Discipline.scopingWith (Params : List (String × Ty) → Prop) (Admits : String → Prop)
    (param : ∀ {params name ty}, Params params → Admits name → Params ((name, ty) :: params)) :
    Discipline .usual where
  Keeps p := p.Scoped ∧ Params p.params
  Admits
  setting := .scoping
  target _ _ := rfl
  outside _ _ := rfl
  steady t := Lowering.ofDepth_isSteady t Lowering.depthLimit
  steadyBody key := Lowering.ofDepth_isSteady key.target Lowering.depthLimit
  declared _ _ _ _ _ := trivial
  start h := ⟨h.1, rfl⟩
  rest h held := ⟨held.inScope, held.params ▸ h.2⟩
  abides {t p} _ := Lowering.ofDepth_scoping t p Lowering.depthLimit
  adds h adds := ⟨h.1.adds adds, adds.params ▸ h.2⟩
  scope {p own} h extends_ := by
    refine ⟨h.1.withScope extends_.params, ?_⟩
    have same : (p.withScope own).params = p.params :=
      congrArg (· ++ p.env.root.params) extends_.params
    exact same ▸ h.2
  param h admitted stored := ⟨h.1.withParam _ stored, param h.2 admitted⟩
  main h held lines := ⟨held.inScope.withMain lines, held.params ▸ h.2⟩
  fn {p p' q _ _ _} h reserves held _ _ := by
    refine ⟨held.inScope.withScope rfl, ?_⟩
    exact (held.params.trans reserves.adds.params) ▸ h.2
  writes {t p _ f} _ _ _ := ⟨_, Setting.scoping_writes t p f.backend _, fun _ =>
    Lowering.ofDepth_scoping t p Lowering.depthLimit⟩

def Discipline.scoping : Discipline .usual :=
  .scopingWith (fun _ => True) (fun _ => True) fun _ _ => trivial

def Discipline.scopingAs (params : List (String × Ty)) : Discipline .usual :=
  .scopingWith (· = params) (fun _ => False) fun _ no => no.elim

end Ember
