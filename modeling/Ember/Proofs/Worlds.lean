import Ember.Lower.Basic
import Ember.Proofs.Names
import Ember.Proofs.Safe

/-!
# Worlds that code lives in

A world says what code may use: the variables in scope, the functions that may be called, the
structs that are declared, and the structs that types may be made of. Values fit a world if their
types and their code do, and lines fit if each of their parts fits the world around it, in which
what was declared before is in scope.

An action lives in a world if it leaves a state that fits the world, together with what it wrote:
then the lines that it wrote fit too, and its result fits the world that they lead to. A world may
grow, but on leaving a block its variables are out of scope again.
-/

set_option autoImplicit false

namespace Ember

/-! ## Types over a set of structs -/

def Ty.Within (K : Known) : Ty → Prop
  | .scalar _ => True
  | .struct s => K s
  | .array of _ => of.Within K
  | .alt first others => K first ∧ ∀ s ∈ others, K s

namespace Ty.Within

variable {K L : Known} {t : Ty}

theorem mono (sub : ∀ s, K s → L s) (h : t.Within K) : t.Within L := by
  induction t using Ty.induct with
  | scalar k => trivial
  | struct s _ => exact sub s h
  | array of len ih => exact ih h
  | alt first others _ _ => exact ⟨sub first h.1, fun s member => sub s (h.2 s member)⟩

theorem struct? (h : t.Within K) {s : Struct} (found : t.struct? = some s) : K s := by
  cases t with
  | scalar k => simp [Ty.struct?] at found
  | array of len => simp [Ty.struct?] at found
  | struct s' =>
    cases Option.some.inj found
    exact h
  | alt first others =>
    cases Option.some.inj found
    exact h.1

theorem array? (h : t.Within K) {of : Ty} {len : Nat} (found : t.array? = some (of, len)) :
    of.Within K := by
  cases t with
  | array of' len' =>
    cases Option.some.inj found
    exact h
  | scalar k => simp [Ty.array?] at found
  | struct s => simp [Ty.array?] at found
  | alt first others => simp [Ty.array?] at found

end Ty.Within

/-! ## Lines and what is in scope -/

abbrev Names := String → Prop

def Names.plus (names : Names) (xs : List String) : Names := fun x => names x ∨ x ∈ xs

@[simp]
theorem Names.plus_nil (names : Names) : names.plus [] = names := by
  funext x
  simp [Names.plus]

@[simp]
theorem Names.plus_plus (names : Names) (xs ys : List String) :
    (names.plus xs).plus ys = names.plus (xs ++ ys) := by
  funext x
  simp [Names.plus, or_assoc]

theorem Names.plus_mono {names more : Names} (sub : ∀ x, names x → more x) (xs : List String)
    {x : String} (h : names.plus xs x) : more.plus xs x := h.imp_left (sub x)

namespace Line

/-- What a line is made of: code, the storage of a variable, and the variable. -/
inductive Use where
  | code (c : Code)
  | storage (r : Storage)
  | new (name : String)

/-- The variables that lines declare in their own block. -/
def declared (ls : List Line) : List String :=
  ls.filterMap fun
    | .declare _ name _ _ => some name
    | _ => none

@[simp]
theorem declared_nil : declared [] = [] := rfl

@[simp]
theorem declared_append (ls ms : List Line) : declared (ls ++ ms) = declared ls ++ declared ms :=
  List.filterMap_append

mutual

/-- All that a line is made of is as it may be with the variables in scope. Those of a loop or a
branch end with it. -/
def Scoped (ok : Names → Use → Prop) (names : Names) : Line → Prop
  | .declare r x init _ =>
    ok names (.storage r) ∧ ok names (.new x) ∧ ∀ c ∈ init, ok names (.code c)
  | .assign place value => ok names (.code place) ∧ ok names (.code value)
  | .eval c | .require c | .give c => ok names (.code c)
  | .branch cond yes no =>
    ok names (.code cond) ∧ AllScoped ok names yes ∧ AllScoped ok names no
  | .loop _ x start stop body =>
    ok names (.new x) ∧ ok names (.code start) ∧ ok names (.code stop) ∧
      AllScoped ok (names.plus [x]) body
  | .jump _ _ | .foreign _ => True

/-- Lines of a block: what one declares is in scope for those after it. -/
def AllScoped (ok : Names → Use → Prop) (names : Names) : List Line → Prop
  | [] => True
  | l :: ls => l.Scoped ok names ∧ AllScoped ok (names.plus (declared [l])) ls

end

variable {ok ok' : Names → Use → Prop}

theorem allScoped_append {names : Names} {ls ms : List Line} :
    AllScoped ok names (ls ++ ms) ↔
      AllScoped ok names ls ∧ AllScoped ok (names.plus (declared ls)) ms := by
  induction ls generalizing names with
  | nil => simp [AllScoped]
  | cons l ls ih =>
    have front : declared (l :: ls) = declared [l] ++ declared ls := declared_append [l] ls
    rw [List.cons_append, AllScoped, AllScoped, ih, front, Names.plus_plus, and_assoc]

theorem allScoped_singleton {names : Names} {l : Line} :
    AllScoped ok names [l] ↔ l.Scoped ok names := by
  simp [AllScoped]

mutual

/-- The names in scope on both sides keep together when more are declared. -/
theorem Scoped.relate {R : Names → Names → Prop}
    (plus : ∀ (ns ms : Names) (xs : List String), R ns ms → R (ns.plus xs) (ms.plus xs))
    (weaker : ∀ (ns ms : Names) (u : Use), R ns ms → ok ns u → ok' ms u) :
    ∀ {names more : Names} (l : Line), R names more → l.Scoped ok names → l.Scoped ok' more
  | _, _, .declare r x init _, sub, h => by
    rw [Scoped] at h ⊢
    exact ⟨weaker _ _ _ sub h.1, weaker _ _ _ sub h.2.1,
      fun c member => weaker _ _ _ sub (h.2.2 c member)⟩
  | _, _, .assign place value, sub, h => by
    rw [Scoped] at h ⊢
    exact ⟨weaker _ _ _ sub h.1, weaker _ _ _ sub h.2⟩
  | _, _, .eval c, sub, h => by
    rw [Scoped] at h ⊢
    exact weaker _ _ _ sub h
  | _, _, .require c, sub, h => by
    rw [Scoped] at h ⊢
    exact weaker _ _ _ sub h
  | _, _, .give c, sub, h => by
    rw [Scoped] at h ⊢
    exact weaker _ _ _ sub h
  | _, _, .branch cond yes no, sub, h => by
    rw [Scoped] at h ⊢
    exact ⟨weaker _ _ _ sub h.1, AllScoped.relate plus weaker yes sub h.2.1,
      AllScoped.relate plus weaker no sub h.2.2⟩
  | _, _, .loop _ x start stop body, sub, h => by
    rw [Scoped] at h ⊢
    exact ⟨weaker _ _ _ sub h.1, weaker _ _ _ sub h.2.1, weaker _ _ _ sub h.2.2.1,
      AllScoped.relate plus weaker body (plus _ _ _ sub) h.2.2.2⟩
  | _, _, .jump _ _, _, _ => by
    rw [Scoped]
    trivial
  | _, _, .foreign _, _, _ => by
    rw [Scoped]
    trivial

theorem AllScoped.relate {R : Names → Names → Prop}
    (plus : ∀ (ns ms : Names) (xs : List String), R ns ms → R (ns.plus xs) (ms.plus xs))
    (weaker : ∀ (ns ms : Names) (u : Use), R ns ms → ok ns u → ok' ms u) :
    ∀ {names more : Names} (ls : List Line), R names more → AllScoped ok names ls →
      AllScoped ok' more ls
  | _, _, [], _, _ => by
    rw [AllScoped]
    trivial
  | _, _, l :: ls, sub, h => by
    rw [AllScoped] at h ⊢
    exact ⟨Scoped.relate plus weaker l sub h.1,
      AllScoped.relate plus weaker ls (plus _ _ _ sub) h.2⟩

end

theorem AllScoped.mono
    (weaker : ∀ (ns ms : Names) (u : Use), (∀ x, ns x → ms x) → ok ns u → ok' ms u)
    {names more : Names} (ls : List Line) (sub : ∀ x, names x → more x)
    (h : AllScoped ok names ls) : AllScoped ok' more ls :=
  relate (fun _ _ xs sub _ => Names.plus_mono sub xs) weaker ls sub h

end Line

/-! ## Worlds -/

/-- Structs that have their layouts, with those that the target declares. -/
structure Ground where
  structs : Nat → Prop
  known : Known
  laid : ∀ s, known s → s.Laid
  fields : ∀ s, known s → ∀ f ∈ s.fields, f.ty.Within known
  stored : ∀ s, known s → ∀ id ∈ s.glsl.storage.ids, structs id

structure World extends Ground where
  calls : String → Prop
  names : Names

/-- What may be mentioned: coined names if they are in scope, names of structs if those are
declared, and other plain names. -/
def Mention.Ok (calls : String → Prop) (structs : Nat → Prop) (names : Names) : Mention → Prop
  | .var x => Text.Plain x ∧ (Ids.Coined x → names x)
  | .fn f => Text.Plain f ∧ (Ids.Coined f → calls f) ∧ ∀ id, NamesStruct f id → structs id
  | .part x => Text.Plain x

def Line.Use.Ok (calls : String → Prop) (structs : Nat → Prop) (names : Names) : Line.Use → Prop
  | .code c => ∀ m ∈ c.mentions, m.Ok calls structs names
  | .storage r => ∀ id ∈ r.ids, structs id
  | .new x => Ids.Coined x

theorem Mention.Ok.plain {calls : String → Prop} {structs : Nat → Prop} {names : Names}
    {m : Mention} (h : m.Ok calls structs names) : Text.Plain m.name := by
  cases m with
  | var x => exact h.1
  | fn f => exact h.1
  | part x => exact h

section Mono

variable {calls calls' : String → Prop} {structs structs' : Nat → Prop} {names names' : Names}
  (callsSub : ∀ f, calls f → calls' f) (structsSub : ∀ id, structs id → structs' id)
  (namesSub : ∀ x, names x → names' x)

include callsSub structsSub namesSub

theorem Mention.Ok.mono {m : Mention} (h : m.Ok calls structs names) :
    m.Ok calls' structs' names' := by
  cases m with
  | var x => exact ⟨h.1, fun coined => namesSub x (h.2 coined)⟩
  | fn f =>
    exact ⟨h.1, fun coined => callsSub f (h.2.1 coined),
      fun id named => structsSub id (h.2.2 id named)⟩
  | part x => exact h

theorem Line.Use.Ok.mono {u : Line.Use} (h : u.Ok calls structs names) :
    u.Ok calls' structs' names' := by
  cases u with
  | code c => exact fun m member => (h m member).mono callsSub structsSub namesSub
  | storage r => exact fun id member => structsSub id (h id member)
  | new x => exact h

end Mono

namespace World

structure Sub (v w : World) : Prop where
  structs : ∀ id, v.structs id → w.structs id
  known : ∀ s, v.known s → w.known s
  calls : ∀ f, v.calls f → w.calls f
  names : ∀ x, v.names x → w.names x

theorem Sub.refl (w : World) : w.Sub w := ⟨fun _ => id, fun _ => id, fun _ => id, fun _ => id⟩

theorem Sub.trans {u v w : World} (first : u.Sub v) (second : v.Sub w) : u.Sub w where
  structs id h := second.structs id (first.structs id h)
  known s h := second.known s (first.known s h)
  calls f h := second.calls f (first.calls f h)
  names x h := second.names x (first.names x h)

def at_ (w : World) (names : Names) : World := { w with names }

def plus (w : World) (xs : List String) : World := w.at_ (w.names.plus xs)

@[simp]
theorem plus_nil (w : World) : w.plus [] = w := by
  simp [plus, at_]

@[simp]
theorem plus_plus (w : World) (xs ys : List String) : (w.plus xs).plus ys = w.plus (xs ++ ys) := by
  simp [plus, at_]

theorem sub_plus (w : World) (xs : List String) : w.Sub (w.plus xs) :=
  ⟨fun _ => id, fun _ => id, fun _ => id, fun _ => .inl⟩

theorem Sub.plus {v w : World} (h : v.Sub w) (xs : List String) : (v.plus xs).Sub (w.plus xs) :=
  ⟨h.structs, h.known, h.calls, fun _ => Names.plus_mono h.names xs⟩

def Uses (w : World) (names : Names) (u : Line.Use) : Prop := u.Ok w.calls w.structs names

theorem uses_mono {v w : World} (sub : v.Sub w) (ns ms : Names) (u : Line.Use)
    (names : ∀ x, ns x → ms x) (h : v.Uses ns u) : w.Uses ms u :=
  Line.Use.Ok.mono sub.calls sub.structs names h

end World

def Code.Loose (w : World) (c : Code) : Prop := ∀ m ∈ c.mentions, m.Ok w.calls w.structs w.names

/-- Code that may also stand beside any operator. -/
structure Code.Fits (w : World) (c : Code) : Prop where
  atom : c.isSealed = true
  loose : c.Loose w

structure Value.Fits (w : World) (v : Value) : Prop where
  ty : v.ty.Within w.known
  code : ∀ c, v.payload = .code c → c.Fits w

def Line.AllFit (w : World) (ls : List Line) : Prop := Line.AllScoped w.Uses w.names ls

class Fitting (α : Type) where
  fit : World → α → Prop
  mono : ∀ {v w : World} {a : α}, v.Sub w → fit v a → fit w a

export Fitting (fit)

section

variable {v w : World} (sub : v.Sub w)

include sub

theorem Code.Loose.mono {c : Code} (h : c.Loose v) : c.Loose w :=
  fun m member => (h m member).mono sub.calls sub.structs sub.names

theorem Code.Fits.mono {c : Code} (h : c.Fits v) : c.Fits w := ⟨h.atom, h.loose.mono sub⟩

theorem Value.Fits.mono {u : Value} (h : u.Fits v) : u.Fits w :=
  ⟨h.ty.mono sub.known, fun c payload => (h.code c payload).mono sub⟩

theorem Line.AllFit.mono {ls : List Line} (h : Line.AllFit v ls) : Line.AllFit w ls :=
  Line.AllScoped.mono (World.uses_mono sub) ls sub.names h

end

instance : Fitting Code := ⟨fun w c => c.Fits w, fun sub h => h.mono sub⟩

instance : Fitting Value := ⟨fun w v => v.Fits w, fun sub h => h.mono sub⟩

instance : Fitting Ty := ⟨fun w t => t.Within w.known, fun sub h => h.mono sub.known⟩

instance : Fitting Struct := ⟨fun w s => w.known s, fun sub h => sub.known _ h⟩

instance : Fitting Unit := ⟨fun _ _ => True, fun _ h => h⟩

instance : Fitting Nat := ⟨fun _ _ => True, fun _ h => h⟩

instance {α : Type} [Fitting α] : Fitting (List α) :=
  ⟨fun w as => ∀ a ∈ as, fit w a, fun sub h a member => Fitting.mono sub (h a member)⟩

instance {α : Type} [Fitting α] : Fitting (Option α) :=
  ⟨fun w o => ∀ a ∈ o, fit w a, fun sub h a member => Fitting.mono sub (h a member)⟩

/-- What a block gives fits the world that its lines lead to. -/
instance {α : Type} [Fitting α] : Fitting (α × List Line) :=
  ⟨fun w p => Line.AllFit w p.2 ∧ fit (w.plus (Line.declared p.2)) p.1,
    fun sub h => ⟨h.1.mono sub, Fitting.mono (sub.plus _) h.2⟩⟩

/-! ## Programs and states that fit -/

def Target.external : Target → String → String
  | .glsl, name => "u_" ++ name
  | .js, name => "$" ++ name

def ParamTy.Within (K : Known) : ParamTy → Prop
  | .exact ty => ty.Within K
  | .vector _ | .any => True

def Behaviour.Tidy (K : Known) : Behaviour → Prop
  | .construct s => K s
  | .splat ty => ty.Within K
  | .user f => ∀ name ∈ f.backend, Ids.Coined name
  | .matrixProduct | .map _ | .reduce _ | .count | .normalize | .cast _ _ => True

structure Function.Tidy (K : Known) (f : Function) : Prop where
  behaviour : f.behaviour.Tidy K
  params : ∀ p ∈ f.params, p.ty.Within K

structure Instance.Tidy (K : Known) (i : Instance) : Prop where
  params : ∀ t ∈ i.params, t.Within K
  ret : i.ret.Within K
  backend : Ids.Coined i.backend

structure Scope.Tidy (K : Known) (s : Scope) : Prop where
  types : ∀ p ∈ s.types, p.2.Within K
  functions : ∀ p ∈ s.functions, p.2.Tidy K
  consts : ∀ p ∈ s.consts, p.2.isConst = true ∧ p.2.ty.Within K
  params : ∀ p ∈ s.params, Text.Plain p.1 ∧ p.2.Within K
  symbols : ∀ p ∈ s.symbols, p.2.Within K
  anon : ∀ p ∈ s.anon, K p.2

/-- Structs of GLSL that use only those before them, and have numbers of their own. -/
def SlotStruct.Ordered (ds : List SlotStruct) : Prop :=
  ∀ front d back, ds = front ++ d :: back →
    (∀ r ∈ d.slots, ∀ id ∈ r.ids, ∃ e ∈ front, e.id = id) ∧ ∀ e ∈ front, e.id ≠ d.id

namespace Program

def Declares (p : Program) (id : Nat) : Prop := ∃ d ∈ p.glsl.structs, d.id = id

def params (p : Program) : List (String × Ty) := p.env.own.params ++ p.env.root.params

def functions (p : Program) : List (String × Function) :=
  p.env.own.functions ++ p.env.root.functions

/-- A program whose types are made of known structs, with the structs of GLSL in order. -/
structure Tidy (g : Ground) (p : Program) : Prop where
  own : p.env.own.Tidy g.known
  root : p.env.root.Tidy g.known
  void : p.builtins.void.Within g.known
  vectors : ∀ q ∈ p.builtins.vectors, q.2.Within g.known
  instances : ∀ i ∈ p.instances, i.2.Tidy g.known
  structs : ∀ id, g.structs id → p.Declares id
  ordered : SlotStruct.Ordered p.glsl.structs
  below : ∀ d ∈ p.glsl.structs, d.id < p.ids.next

/-- A program, and one with nothing more than types, numbers and structs added. -/
structure Adds (p q : Program) : Prop where
  ids : p.ids.next ≤ q.ids.next
  declared : q.env.own.functions = p.env.own.functions
  root : q.env.root = p.env.root
  instances : q.instances = p.instances
  outputs : ∀ t, (q.output t).functions = (p.output t).functions
  main : q.js.main = p.js.main
  uniforms : q.glsl.uniforms = p.glsl.uniforms
  params : q.params = p.params
  structs : ∀ d ∈ p.glsl.structs, d ∈ q.glsl.structs

theorem Adds.functions {p q : Program} (h : p.Adds q) : q.functions = p.functions := by
  rw [Program.functions, h.declared, h.root, Program.functions]

end Program

theorem Program.adds_numbered (p : Program) {ids : Ids} (more : p.ids.next ≤ ids.next) :
    p.Adds { p with ids } :=
  ⟨more, rfl, rfl, rfl, fun t => by cases t <;> rfl, rfl, rfl, rfl, fun _ => id⟩

theorem Program.Tidy.numbered {g : Ground} {p : Program} (h : p.Tidy g) {ids : Ids}
    (more : p.ids.next ≤ ids.next) : Program.Tidy g { p with ids } where
  own := h.own
  root := h.root
  void := h.void
  vectors := h.vectors
  instances := h.instances
  structs := h.structs
  ordered := h.ordered
  below d member := (h.below d member).trans_le more

/-- For which target code is written, what is in scope everywhere, which functions are declared and
which may be called already, and what else is kept to. -/
structure Setting where
  target : Target
  outside : Names
  declared : UserFn → Prop
  calls : Program → String → Prop
  Holds : Program → Prop
  calls_adds : ∀ {p q : Program}, p.Adds q → ∀ f, calls q f ↔ calls p f
  holds_adds : ∀ {p q : Program}, p.Adds q → Holds p → Holds q

def Level.Fits (w : World) (l : Level) : Prop := ∀ p ∈ l.locals, p.2.Fits w

structure Activation.Fits (w : World) (f : Activation) : Prop where
  level : f.level.Fits w
  outer : ∀ l ∈ f.outer, l.Fits w
  typeParams : ∀ p ∈ f.typeParams, p.2.Within w.known

structure Emission.In (c : Setting) (w : World) (s : Emission) : Prop where
  tidy : s.program.Tidy w.toGround
  calls : ∀ f, w.calls f ↔ c.calls s.program f
  externals : ∀ x, c.outside x ↔ ∃ p ∈ s.program.params, x = c.target.external p.1
  declared : ∀ p ∈ s.program.functions, ∀ f, p.2.behaviour = .user f → c.declared f
  outside : ∀ x, c.outside x → w.names x
  holds : c.Holds s.program
  frame : s.frame.Fits w

theorem Level.Fits.mono {v w : World} (sub : v.Sub w) {l : Level} (h : l.Fits v) : l.Fits w :=
  fun p member => (h p member).mono sub

theorem Activation.Fits.mono {v w : World} (sub : v.Sub w) {f : Activation} (h : f.Fits v) :
    f.Fits w where
  level := h.level.mono sub
  outer l member := (h.outer l member).mono sub
  typeParams p member := (h.typeParams p member).mono sub.known

theorem Activation.Fits.local? {w : World} {f : Activation} (h : f.Fits w) {name : String}
    {v : Value} (found : f.local? name = some v) : v.Fits w := by
  obtain ⟨level, member, found⟩ := List.exists_of_findSome?_eq_some found
  have fits : level.Fits w := by
    rcases List.mem_cons.mp member with rfl | outer
    · exact h.level
    · exact h.outer level outer
  exact fits _ (mem_of_lookup found)

/-- More variables in scope do no harm. -/
theorem Emission.In.plus {c : Setting} {w : World} {s : Emission} (h : s.In c w)
    (xs : List String) : s.In c (w.plus xs) where
  tidy := h.tidy
  calls := h.calls
  externals := h.externals
  declared := h.declared
  outside x out := .inl (h.outside x out)
  holds := h.holds
  frame := h.frame.mono (w.sub_plus xs)

theorem Emission.In.numbered {c : Setting} {w : World} {s : Emission} (h : s.In c w) {ids : Ids}
    (more : s.program.ids.next ≤ ids.next) :
    Emission.In c w { s with program := { s.program with ids } } where
  tidy := h.tidy.numbered more
  calls f := (h.calls f).trans (c.calls_adds (s.program.adds_numbered more) f).symm
  externals := h.externals
  declared := h.declared
  outside := h.outside
  holds := c.holds_adds (s.program.adds_numbered more) h.holds
  frame := h.frame

/-- The innermost block has got lines, and the blocks around are the same. -/
structure Emission.Gains (s : Emission) (ls : List Line) (t : Emission) : Prop where
  lines : t.frame.level.lines = s.frame.level.lines ++ ls
  outer : t.frame.outer = s.frame.outer

theorem Emission.gains_nil {s t : Emission} (lines : t.frame.level.lines = s.frame.level.lines)
    (outer : t.frame.outer = s.frame.outer) : s.Gains [] t := ⟨by simp [lines], outer⟩

theorem Emission.Gains.trans {s t u : Emission} {ls ms : List Line} (first : s.Gains ls t)
    (second : t.Gains ms u) : s.Gains (ls ++ ms) u where
  lines := by rw [second.lines, first.lines, List.append_assoc]
  outer := second.outer.trans first.outer

/-- A name may be bound to what fits. -/
theorem Emission.In.named {c : Setting} {w : World} {s : Emission} (h : s.In c w) (name : String)
    {v : Value} (fits : v.Fits w) :
    Ends (Emit.bindName name v) s (fun _ t => t.In c w ∧ s.Gains [] t) (fun _ _ => False) :=
  ⟨⟨h.tidy, h.calls, h.externals, h.declared, h.outside, h.holds,
    List.forall_mem_cons.mpr ⟨fits, h.frame.level⟩, h.frame.outer, h.frame.typeParams⟩,
    Emission.gains_nil rfl rfl⟩

theorem Emission.In.entered {c : Setting} {w : World} {s : Emission} (h : s.In c w) :
    s.entered.In c w :=
  ⟨h.tidy, h.calls, h.externals, h.declared, h.outside, h.holds,
    fun p member => absurd member (by simp [Emission.entered]),
    List.forall_mem_cons.mpr ⟨h.frame.level, h.frame.outer⟩, h.frame.typeParams⟩

theorem Emission.In.looping {c : Setting} {w : World} {s : Emission} (h : s.In c w) (loop : Loop) :
    (s.looping loop).In c w :=
  ⟨h.tidy, h.calls, h.externals, h.declared, h.outside, h.holds, h.frame.level, h.frame.outer,
    h.frame.typeParams⟩

theorem Emission.In.unlooped {c : Setting} {w : World} {s : Emission} (h : s.In c w) :
    s.unlooped.In c w :=
  ⟨h.tidy, h.calls, h.externals, h.declared, h.outside, h.holds, h.frame.level, h.frame.outer,
    h.frame.typeParams⟩

/-- How deep calls are being computed does not matter. -/
theorem Emission.In.counted {c : Setting} {w : World} {s : Emission} (h : s.In c w) (n : Nat) :
    Emission.In c w { s with constDepth := n } :=
  ⟨h.tidy, h.calls, h.externals, h.declared, h.outside, h.holds, h.frame⟩

/-- Another function body sees no variables but those from outside. -/
theorem Emission.In.framed {c : Setting} {w : World} {s : Emission} (h : s.In c w)
    {frame : Activation} (fits : frame.Fits (w.at_ c.outside)) :
    Emission.In c (w.at_ c.outside) { s with frame } :=
  ⟨h.tidy, h.calls, h.externals, h.declared, fun _ => id, h.holds, fits⟩

/-! ## Actions -/

variable {α β : Type}

/-- An action that is known to run well, and then another. -/
theorem Ends.bind_run {σ : Type} {act : EStateM Failure σ α} {next : α → EStateM Failure σ β}
    {s t : σ} {a : α} {good : β → σ → Prop} {bad : Failure → σ → Prop} (run : act s = .ok a t)
    (h : Ends (next a) t good bad) : Ends (act >>= next) s good bad := by
  refine Ends.bind ?_
  rw [Ends, run]
  exact h

theorem Ends.locating {act : Emit α} {s : Emission} {good : α → Emission → Prop} (span : Span)
    (h : Ends act s good fun _ _ => True) :
    Ends (Emit.locating span act) s good fun _ _ => True := by
  unfold Ends Emit.locating at *
  cases run : act s with
  | ok a t => simpa [run] using h
  | error f t => simp

/-- What lines that were written make of a world. -/
structure World.Writes (w : World) (ls : List Line) (w' : World) : Prop where
  sub : w.Sub w'
  names : w'.names = w.names.plus (Line.declared ls)
  fit : Line.AllScoped w'.Uses w.names ls

namespace World.Writes

theorem refl (w : World) : w.Writes [] w := ⟨.refl w, by simp, by simp [Line.AllScoped]⟩

theorem trans {u v w : World} {ls ms : List Line} (first : u.Writes ls v) (second : v.Writes ms w) :
    u.Writes (ls ++ ms) w where
  sub := first.sub.trans second.sub
  names := by rw [second.names, first.names, Line.declared_append, Names.plus_plus]
  fit := by
    refine Line.allScoped_append.mpr ⟨?_, first.names ▸ second.fit⟩
    exact Line.AllScoped.mono (World.uses_mono second.sub) ls (fun _ => id) first.fit

end World.Writes

/-- An action that lives in a world: it leaves what fits a world that has grown by what it
wrote. -/
def Lives (c : Setting) (w : World) (act : Emit α) (Q : World → α → Prop) : Prop :=
  ∀ s : Emission, s.In c w → Ends act s
    (fun a t => ∃ w' ls, w.Writes ls w' ∧ s.Gains ls t ∧ t.In c w' ∧ Q w' a)
    (fun _ _ => True)

abbrev Grants (x : Except Failure α) (P : α → Prop) : Prop := Gives x P fun _ => True

theorem Grants.of_forall {x : Except Failure α} {P : α → Prop} (h : ∀ a, P a) : Grants x P := by
  cases x with
  | ok a => exact h a
  | error f => trivial

theorem Grants.mapM {f : α → Except Failure β} {xs : List α} {P : β → Prop}
    (each : ∀ a ∈ xs, Grants (f a) P) : Grants (xs.mapM f) fun ys => ∀ b ∈ ys, P b := by
  have related : Gives (xs.mapM f) (List.Forall₂ (fun _ => P) xs) fun _ => True := .mapM each
  refine related.imp fun ys related b member => ?_
  obtain ⟨_, _, h⟩ := exists_left_of_forall₂ related member
  exact h

namespace Lives

variable {c : Setting} {w : World} {act : Emit α} {Q : World → α → Prop}

theorem mono {Q' : World → α → Prop} (h : Lives c w act Q)
    (weaker : ∀ w', w.Sub w' → ∀ a, Q w' a → Q' w' a) : Lives c w act Q' := by
  intro s inside
  refine (h s inside).mono ?_ fun _ _ => id
  rintro a t ⟨w', ls, writes, gained, state, holds⟩
  exact ⟨w', ls, writes, gained, state, weaker w' writes.sub a holds⟩

theorem pure {a : α} (h : Q w a) : Lives c w (pure a) Q :=
  fun _ inside => Ends.pure ⟨w, [], .refl w, Emission.gains_nil rfl rfl, inside, h⟩

theorem bind {next : α → Emit β} {Q' : World → β → Prop} (h : Lives c w act Q)
    (then_ : ∀ w', w.Sub w' → ∀ a, Q w' a → Lives c w' (next a) Q') :
    Lives c w (act >>= next) Q' := by
  intro s inside
  refine Ends.bind ((h s inside).mono ?_ fun _ _ => id)
  rintro a t ⟨w', ls, writes, gained, state, holds⟩
  refine (then_ w' writes.sub a holds t state).mono ?_ fun _ _ => id
  rintro b u ⟨w'', ms, writes', gained', state', holds'⟩
  exact ⟨w'', ls ++ ms, writes.trans writes', gained.trans gained', state', holds'⟩

theorem throw (f : Failure) : Lives c w (throw f : Emit α) Q :=
  fun _ _ => Ends.throw trivial

theorem problem (p : Problem) : Lives c w (Emit.problem p : Emit α) Q := throw _

theorem defect (d : Defect) : Lives c w (Emit.defect d : Emit α) Q := throw _

theorem lift {x : Except Failure α} (h : Grants x (Q w)) : Lives c w (liftM x) Q :=
  fun _ inside => Ends.lift (h.mono (fun _ holds =>
    ⟨w, [], .refl w, Emission.gains_nil rfl rfl, inside, holds⟩) fun _ _ => trivial)

theorem locating {span : Span} (h : Lives c w act Q) : Lives c w (Emit.locating span act) Q :=
  fun s inside => (h s inside).locating span

theorem look {f : Emission → α} (h : ∀ s : Emission, s.In c w → Q w (f s)) :
    Lives c w (Emit.look f) Q :=
  fun s inside => ⟨w, [], .refl w, Emission.gains_nil rfl rfl, inside, h s inside⟩

theorem mapM [Fitting β] {f : α → Emit β} {xs : List α}
    (h : ∀ w', w.Sub w' → ∀ a ∈ xs, Lives c w' (f a) fit) : Lives c w (xs.mapM f) fit := by
  induction xs generalizing w with
  | nil => exact pure (by simp [fit])
  | cons a as ih =>
    rw [List.mapM_cons]
    refine bind (h w (.refl w) a (by simp)) fun w' sub b hb => ?_
    refine bind (ih fun w'' sub' d hd => h w'' (sub.trans sub') d (by simp [hd]))
      fun w'' sub' bs hbs => ?_
    refine pure ?_
    rintro d member
    rcases List.mem_cons.mp member with rfl | rest
    · exact Fitting.mono sub' hb
    · exact hbs d rest

/-- A change of the program that the world need not know of. -/
theorem modifyProgram {f : Program → Program}
    (h : ∀ p : Program, p.Tidy w.toGround → p.Adds (f p) ∧ (f p).Tidy w.toGround) :
    Lives c w (Emit.modifyProgram f) fit := by
  intro s inside
  obtain ⟨adds, tidy⟩ := h s.program inside.tidy
  refine ⟨w, [], .refl w, Emission.gains_nil rfl rfl, ?_, trivial⟩
  exact ⟨tidy, fun g => (inside.calls g).trans (c.calls_adds adds g).symm,
    fun x => adds.params ▸ inside.externals x, adds.functions ▸ inside.declared, inside.outside,
    c.holds_adds adds inside.holds, inside.frame⟩

/-! ### Lines and blocks -/

theorem lines {ls : List Line} (h : Line.AllFit w ls) :
    Lives c w (Emit.lines ls) fun w' _ => w' = w.plus (Line.declared ls) := by
  intro s inside
  have more := inside.plus (Line.declared ls)
  exact ⟨w.plus (Line.declared ls), ls, ⟨w.sub_plus _, rfl, h⟩, ⟨rfl, rfl⟩,
    ⟨more.tidy, more.calls, more.externals, more.declared, more.outside, more.holds,
      more.frame.level, more.frame.outer, more.frame.typeParams⟩, rfl⟩

theorem line {l : Line} (h : l.Scoped w.Uses w.names) :
    Lives c w (Emit.line l) fun w' _ => w' = w.plus (Line.declared [l]) :=
  lines (Line.allScoped_singleton.mpr h)

/-- A line that declares nothing. -/
theorem effect {l : Line} (h : l.Scoped w.Uses w.names) : Lives c w (Emit.line l) fit :=
  (line h).mono fun _ _ _ _ => trivial

theorem declareVar {x : String} {t : Ty} {init : Option Code} (mutable : Bool)
    (coined : Ids.Coined x) (stored : ∀ id ∈ (t.storage .glsl).ids, w.structs id)
    (code : ∀ e ∈ init, e.Loose w) :
    Lives c w (Emit.declareVar x t init mutable) fun w' _ => w'.names x := by
  have fits : Line.Scoped w.Uses w.names (.declare (t.storage .glsl) x init mutable) := by
    rw [Line.Scoped]
    exact ⟨stored, coined, code⟩
  refine (line fits).mono fun w' _ _ same => ?_
  rw [same]
  exact .inr (by simp [Line.declared])

theorem bindName (name : String) {v : Value} (h : v.Fits w) :
    Lives c w (Emit.bindName name v) fit := by
  intro s inside
  refine (inside.named name h).mono ?_ fun _ _ no => no.elim
  rintro _ t ⟨state, gained⟩
  exact ⟨w, [], .refl w, gained, state, trivial⟩

/-- A block, with some variables that whoever writes its lines declares around it. -/
theorem inBlockWith (xs : List String) (h : Lives c (w.plus xs) act Q) :
    Lives c w (Emit.inBlock act) fun w' p => w'.names = w.names ∧ Line.AllFit (w'.plus xs) p.2 ∧
      Q (w'.plus (xs ++ Line.declared p.2)) p.1 := by
  intro s inside
  have ends := h _ (inside.plus xs).entered
  unfold Ends at *
  rw [Emit.inBlock_run]
  cases run : act s.entered with
  | error f t => trivial
  | ok a t =>
    rw [run] at ends
    obtain ⟨w', ls, writes, gained, state, holds⟩ := ends
    have written : t.frame.level.lines = ls := gained.lines
    have outer : t.frame.outer = s.frame.level :: s.frame.outer := gained.outer
    have inner : (w'.at_ w.names).plus (xs ++ Line.declared ls) = w' := by
      have names := writes.names
      simp only [World.plus, World.at_, Names.plus_plus] at names ⊢
      rw [← names]
    have sub : w.Sub (w'.at_ w.names) :=
      ⟨writes.sub.structs, writes.sub.known, writes.sub.calls, fun _ => id⟩
    have none : w.Writes [] (w'.at_ w.names) :=
      ⟨sub, by simp [World.at_], by simp [Line.AllScoped]⟩
    refine ⟨w'.at_ w.names, [], none, Emission.gains_nil ?_ ?_, ?_, ?_⟩
    · simp [Emission.left, outer]
    · simp [Emission.left, outer]
    · -- the block that was entered is dropped, so the frame fits as it did before
      have before := inside.frame.mono sub
      refine ⟨state.tidy, state.calls, state.externals, state.declared, inside.outside, state.holds,
        ?_, ?_, state.frame.typeParams⟩
      · simpa [Emission.left, outer] using before.level
      · simpa [Emission.left, outer] using before.outer
    · dsimp only
      rw [written, inner]
      exact ⟨rfl, writes.fit, holds⟩

theorem inBlock [Fitting α] (h : Lives c w act fit) : Lives c w (Emit.inBlock act) fit := by
  have block := inBlockWith [] (by simpa using h)
  refine block.mono fun w' _ p fits => ?_
  simp only [World.plus_nil, List.nil_append] at fits
  exact fits.2

theorem nested [Fitting α] (h : Lives c w act fit) : Lives c w (Emit.nested act) fit := by
  refine bind h.inBlock fun w' _ p fits => ?_
  refine bind (lines fits.1) fun w'' _ _ same => ?_
  rw [same]
  exact pure fits.2

/-- Between a way in and a way out that leave the blocks alone. -/
theorem bracket {enter leave : Emission → Emission}
    (into : ∀ s : Emission, s.In c w → (enter s).In c w ∧ s.Gains [] (enter s))
    (back : ∀ (w' : World) (s : Emission), s.In c w' → (leave s).In c w' ∧ s.Gains [] (leave s))
    (h : Lives c w act Q) : Lives c w (Emit.bracket enter leave act) Q := by
  intro s inside
  obtain ⟨entered, around⟩ := into s inside
  refine Ends.bracket ((h _ entered).mono ?_ fun _ _ => id)
  rintro a t ⟨w', ls, writes, gained, state, holds⟩
  obtain ⟨left, kept⟩ := back w' t state
  exact ⟨w', ls, writes, by simpa using (around.trans gained).trans kept, left, holds⟩

theorem inLoop {loop : Loop} (h : Lives c w act Q) : Lives c w (Emit.inLoop loop act) Q :=
  bracket (fun _ inside => ⟨inside.looping loop, Emission.gains_nil rfl rfl⟩)
    (fun _ _ inside => ⟨inside.unlooped, Emission.gains_nil rfl rfl⟩) h

theorem computing (h : Lives c w act Q) : Lives c w (Emit.computing act) Q :=
  bracket (fun _ inside => ⟨inside.counted _, Emission.gains_nil rfl rfl⟩)
    (fun _ _ inside => ⟨inside.counted _, Emission.gains_nil rfl rfl⟩) h

/-- Another function body sees no variables but those from outside, and its own end with it. -/
theorem inFrame_of_ends {frame : Activation} (fits : frame.Fits (w.at_ c.outside))
    (h : ∀ s : Emission, s.In c (w.at_ c.outside) → Ends act s
      (fun a t => ∃ w', (w.at_ c.outside).Sub w' ∧ t.In c w' ∧ Q w' a)
      (fun _ _ => True)) :
    Lives c w (Emit.inFrame frame act) fun w' a => ∃ names, Q (w'.at_ names) a := by
  intro s inside
  have ends := h _ (inside.framed fits)
  unfold Ends Emit.inFrame at *
  cases run : act { s with frame } with
  | error f t =>
    rw [run] at ends
    exact ends
  | ok a t =>
    rw [run] at ends
    obtain ⟨w', grown, state, holds⟩ := ends
    have sub : w.Sub (w'.at_ w.names) :=
      ⟨grown.structs, grown.known, grown.calls, fun _ => id⟩
    refine ⟨w'.at_ w.names, [], ⟨sub, by simp [World.at_], by simp [Line.AllScoped]⟩,
      Emission.gains_nil rfl rfl, ?_, w'.names, holds⟩
    exact ⟨state.tidy, state.calls, state.externals, state.declared, inside.outside, state.holds,
      inside.frame.mono sub⟩

theorem inFrame {frame : Activation} (fits : frame.Fits (w.at_ c.outside))
    (h : Lives c (w.at_ c.outside) act Q) :
    Lives c w (Emit.inFrame frame act) fun w' a => ∃ names, Q (w'.at_ names) a := by
  refine inFrame_of_ends fits fun s inside => (h s inside).mono ?_ fun _ _ => id
  rintro a t ⟨w', ls, writes, _, state, holds⟩
  exact ⟨w', writes.sub, state, holds⟩

/-! ### Numbers and look-ups -/

/-- Numbers that are given out change nothing else. -/
theorem numbering {n : Numbering α}
    (h : ∀ ids : Ids, Ends n ids (fun a ids' => ids.next ≤ ids'.next ∧ Q w a)
      (fun _ _ => True)) : Lives c w (Emit.numbering n) Q := by
  intro s inside
  have ends := h s.program.ids
  unfold Ends Emit.numbering at *
  cases run : n s.program.ids with
  | error f ids =>
    rw [run] at ends
    trivial
  | ok a ids =>
    rw [run] at ends
    exact ⟨w, [], .refl w, Emission.gains_nil rfl rfl, inside.numbered ends.1, ends.2⟩

theorem fresh (stem : String) : Lives c w (Emit.fresh stem) fun _ x => Ids.Coined x :=
  numbering fun ids => ⟨Nat.le_succ ids.next, ids.coined_fresh stem⟩

theorem temp : Lives c w Emit.temp fun _ x => Ids.Coined x :=
  numbering fun ids => ⟨Nat.le_succ ids.next, ids.coined_temp⟩

theorem local? (name : String) : Lives c w (Emit.local? name) fit :=
  look fun _ inside _ found => inside.frame.local? found

theorem voidTy : Lives c w Emit.voidTy fit := look fun _ inside => inside.tidy.void

theorem voidValue : Lives c w Emit.voidValue fit :=
  bind voidTy fun _ _ _ within => pure ⟨within, by rintro _ ⟨⟩⟩

theorem vectorTy (k : ScalarKind) (width : Nat) : Lives c w (Emit.vectorTy k width) fit := by
  have builtins : Lives c w (Emit.look (·.program.builtins)) fun w b =>
      ∀ q ∈ b.vectors, q.2.Within w.known := look fun _ inside => inside.tidy.vectors
  refine bind builtins fun w' _ b vectors => lift ?_
  unfold Builtins.vector
  split
  · trivial
  · split
    · rename_i ty found
      exact vectors _ (mem_of_lookup found)
    · trivial

end Lives
end Ember
