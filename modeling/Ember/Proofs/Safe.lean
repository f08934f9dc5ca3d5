import Ember.Emit.Basic
import Ember.Prelude
import Ember.Proofs.Clean
import Ember.Proofs.ScalarOps
import Ember.Proofs.Values

/-!
# Lowering that does not go wrong

A program, and the state of lowering in it, hang together over a set of structs if all that they
hold is over that set. An action is safe if it keeps that, over a set that may have grown, and if it
blames the compiler only where structs of one group keep nothing.
-/

set_option autoImplicit false

namespace Ember

/-! ## What programs hold -/

namespace Reduction

def arity : Reduction → Nat
  | .eq | .ne | .approx | .dot => 2
  | .length => 1

def Supports (r : Reduction) (k : ScalarKind) : Prop :=
  match r with
  | .eq | .ne => True
  | .approx | .dot | .length => k = .float

end Reduction

/-- Casts are between numbers. -/
def ScalarKind.IsNumber (k : ScalarKind) : Prop := k = .float ∨ k = .int

def ParamTy.Over (K : Known) : ParamTy → Prop
  | .exact ty => ty.Over K
  | .vector _ | .any => True

def UserFn.Clean (f : UserFn) : Prop :=
  f.decl.Clean ∧ ∀ blocks ∈ f.source, ∀ b ∈ blocks, b.Clean

inductive Behaviour.Fits (K : Known) : List ParamTy → Behaviour → Prop
  | construct {s : Struct} : K s → Fits K (s.fields.map fun f => .exact f.ty) (.construct s)
  | splat {s : Struct} {k : ScalarKind} {w : Nat} : K s → (Ty.struct s).shape? = some (k, w) →
      Fits K [.exact (.scalar k)] (.splat (.struct s))
  | matrixProduct {m : Struct} {column : Ty} {w : Nat} : K m → m.matrix = true →
      column.Over K → column.shape? = some (.float, w) →
      Fits K [.exact (.struct m), .exact column] .matrixProduct
  | map {op : ScalarOp} {k : ScalarKind} {params : List ParamTy} : op.Supports k →
      params.length = op.arity → (∀ p ∈ params, p = .vector k ∨ p = .exact (.scalar k)) →
      Fits K params (.map op)
  | reduce {r : Reduction} {k : ScalarKind} : r.Supports k →
      Fits K (List.replicate r.arity (.vector k)) (.reduce r)
  | count : Fits K [.any] .count
  | normalize : Fits K [.vector .float] .normalize
  | cast {source goal : ScalarKind} : source.IsNumber → goal.IsNumber →
      Fits K [.exact (.scalar source)] (.cast source goal)
  | user {f : UserFn} {params : List ParamTy} : f.Clean → (∀ p ∈ params, p.Over K) →
      Fits K params (.user f)

def Function.Over (K : Known) (f : Function) : Prop := f.behaviour.Fits K (f.params.map Param.ty)

def Ty.IsUnit (K : Known) (t : Ty) : Prop := ∃ s, t = .struct s ∧ K s ∧ s.fields = []

structure Scope.Over (K : Known) (s : Scope) : Prop where
  types : ∀ p ∈ s.types, p.2.Over K
  functions : ∀ p ∈ s.functions, p.2.Over K
  consts : ∀ p ∈ s.consts, p.2.Over K
  params : ∀ p ∈ s.params, p.2.Over K ∧ p.2.isVoid = false
  symbols : ∀ p ∈ s.symbols, p.2.IsUnit K
  anon : ∀ p ∈ s.anon, K p.2

structure Builtins.Over (K : Known) (b : Builtins) : Prop where
  void : b.void.IsUnit K
  vectors : ∀ p ∈ b.vectors, p.2.Over K ∧ p.2.shape? = some p.1

/-- What lowering takes for granted: a matrix is multiplied by the builtin vector that its columns
are, and `&&` is on truth values. -/
structure Prelude.Usual (scope : Scope) (b : Builtins) : Prop where
  products : ∀ f ∈ scope.functions, f.2.behaviour = .matrixProduct →
    ∃ (m : Struct) (column : Ty) (w : Nat),
      f.2.params.map Param.ty = [.exact (.struct m), .exact column] ∧
      (∀ g ∈ m.fields, g.ty = column) ∧ column.shape? = some (.float, w) ∧
      b.vector .float w = .ok column
  conjunction : ∀ f ∈ scope.functions, f.1 = "_and" → f.2 = Prelude.scalarFn "&&" .and .bool

def Behaviour.IsDeclared (b : Behaviour) : Prop := (∃ s, b = .construct s) ∨ ∃ f, b = .user f

/-- A program whose parts are over a set of structs, in the scope of the prelude. What is declared
together is declared by name. -/
structure Program.Over (K : Known) (p : Program) : Prop where
  closed : K.Closed
  below : K.Below p.ids.next
  own : p.env.own.Over K
  root : p.env.root.Over K
  builtins : p.builtins.Over K
  instances : ∀ i ∈ p.instances, (∀ t ∈ i.2.params, t.Over K) ∧ i.2.ret.Over K
  groups : ∀ s t, K s → K t → s.uid ≠ t.uid → s.group = t.group →
    (∃ n, (n, Ty.struct s) ∈ p.env.own.types) ∧ ∃ n, (n, Ty.struct t) ∈ p.env.own.types
  declared : ∀ f ∈ p.env.own.functions, f.2.behaviour.IsDeclared
  prelude : Prelude.Usual p.env.root p.builtins

def Level.Over (K : Known) (l : Level) : Prop := ∀ p ∈ l.locals, p.2.Over K

structure Activation.Over (K : Known) (f : Activation) : Prop where
  level : f.level.Over K
  outer : ∀ l ∈ f.outer, l.Over K
  typeParams : ∀ p ∈ f.typeParams, p.2.Over K

structure Emission.Over (K : Known) (s : Emission) : Prop where
  program : s.program.Over K
  frame : s.frame.Over K

/-! ## More structs -/

def Known.Sub (K L : Known) : Prop := ∀ s, K s → L s

namespace Known.Sub

variable {K L M : Known}

theorem refl (K : Known) : K.Sub K := fun _ => id

theorem trans (first : K.Sub L) (second : L.Sub M) : K.Sub M := fun s h => second s (first s h)

end Known.Sub

variable {K L : Known} (sub : K.Sub L)

include sub

theorem ParamTy.Over.mono {p : ParamTy} (h : p.Over K) : p.Over L := by
  cases p with
  | exact ty => exact Ty.Over.mono sub h
  | vector k => trivial
  | any => trivial

theorem Behaviour.Fits.mono {params : List ParamTy} {b : Behaviour} (h : b.Fits K params) :
    b.Fits L params := by
  cases h with
  | construct known => exact .construct (sub _ known)
  | splat known shape => exact .splat (sub _ known) shape
  | matrixProduct known matrix valid shape =>
    exact .matrixProduct (sub _ known) matrix (Ty.Over.mono sub valid) shape
  | map supports arity params => exact .map supports arity params
  | reduce supports => exact .reduce supports
  | count => exact .count
  | normalize => exact .normalize
  | cast source goal => exact .cast source goal
  | user clean params => exact .user clean fun p member => ParamTy.Over.mono sub (params p member)

theorem Ty.IsUnit.mono {t : Ty} (h : t.IsUnit K) : t.IsUnit L := by
  obtain ⟨s, rfl, known, fields⟩ := h
  exact ⟨s, rfl, sub s known, fields⟩

theorem Scope.Over.mono {s : Scope} (h : s.Over K) : s.Over L where
  types p member := Ty.Over.mono sub (h.types p member)
  functions p member := Behaviour.Fits.mono sub (h.functions p member)
  consts p member := Value.Over.mono sub (h.consts p member)
  params p member := ⟨Ty.Over.mono sub (h.params p member).1, (h.params p member).2⟩
  symbols p member := Ty.IsUnit.mono sub (h.symbols p member)
  anon p member := sub _ (h.anon p member)

theorem Builtins.Over.mono {b : Builtins} (h : b.Over K) : b.Over L where
  void := Ty.IsUnit.mono sub h.void
  vectors p member := ⟨Ty.Over.mono sub (h.vectors p member).1, (h.vectors p member).2⟩

theorem Level.Over.mono {l : Level} (h : l.Over K) : l.Over L :=
  fun p member => Value.Over.mono sub (h p member)

theorem Activation.Over.mono {f : Activation} (h : f.Over K) : f.Over L where
  level := Level.Over.mono sub h.level
  outer l member := Level.Over.mono sub (h.outer l member)
  typeParams p member := Ty.Over.mono sub (h.typeParams p member)

omit sub

theorem Activation.Over.local? {f : Activation} (valid : f.Over K) {name : String} {v : Value}
    (found : f.local? name = some v) : v.Over K := by
  obtain ⟨level, member, found⟩ := List.exists_of_findSome?_eq_some found
  have levelValid : level.Over K := by
    rcases List.mem_cons.mp member with rfl | outer
    · exact valid.level
    · exact valid.outer level outer
  exact levelValid _ (mem_of_lookup found)

/-- What is written for a target is no concern of the structs. -/
theorem Program.Over.modifyOutput {p : Program} (valid : p.Over K) (target : Target)
    (f : Output → Output) : (p.modifyOutput target f).Over K := by
  cases target
  all_goals exact ⟨valid.closed, valid.below, valid.own, valid.root, valid.builtins,
    valid.instances, valid.groups, valid.declared, valid.prelude⟩

/-- A scope that keeps its types. -/
theorem Program.Over.modifyScope {p : Program} (valid : p.Over K) {f : Scope → Scope}
    (own : (f p.env.own).Over K) (types : (f p.env.own).types = p.env.own.types)
    (declared : ∀ g ∈ (f p.env.own).functions, g.2.behaviour.IsDeclared) :
    (p.modifyScope f).Over K := by
  refine ⟨valid.closed, valid.below, own, valid.root, valid.builtins, valid.instances, ?_, declared,
    valid.prelude⟩
  simp only [Program.modifyScope, types]
  exact valid.groups

theorem Emission.Over.entered {s : Emission} (own : s.Over K) : s.entered.Over K :=
  ⟨own.program, by simp [Level.Over, Emission.entered], by
    simpa [Emission.entered] using ⟨own.frame.level, own.frame.outer⟩, own.frame.typeParams⟩

theorem Emission.Over.left {s : Emission} (own : s.Over K) : s.left.Over K := by
  obtain ⟨program, level, outer, typeParams⟩ := own
  refine ⟨program, ?_, fun l member => outer l (List.mem_of_mem_tail member), typeParams⟩
  cases blocks : s.frame.outer with
  | nil => simp [Level.Over, Emission.left, blocks]
  | cons l ls => simpa [Emission.left, blocks] using outer l (by simp [blocks])

/-! ## Safe actions -/

variable {α β : Type}

theorem Emit.inBlock_run (act : Emit α) (s : Emission) :
    inBlock act s = match act s.entered with
      | .ok a t => .ok (a, t.frame.level.lines) t.left
      | .error f t => .error f t.left := by
  simp only [inBlock, bracket, bind, EStateM.bind]
  cases act s.entered <;> rfl

theorem Ends.bracket {act : Emit α} {enter leave : Emission → Emission} {s : Emission}
    {good : α → Emission → Prop} {bad : Failure → Emission → Prop}
    (h : Ends act (enter s) (fun a t => good a (leave t)) fun f t => bad f (leave t)) :
    Ends (Emit.bracket enter leave act) s good bad := by
  unfold Ends Emit.bracket at *
  cases run : act (enter s) with
  | ok a t => simpa [run] using h
  | error f t => simpa [run] using h

/-- An action that keeps the state over a set of structs, which may grow. -/
def Safe (K : Known) (act : Emit α) (Q : Known → α → Prop) : Prop :=
  ∀ s : Emission, s.Over K → Ends act s
    (fun a t => ∃ L, K.Sub L ∧ t.Over L ∧ Q L a)
    (fun f t => ∃ L, K.Sub L ∧ t.program.Over L ∧ L.Excuses f)

namespace Safe

variable {act : Emit α} {Q : Known → α → Prop}

/-- The set of structs may be taken to hang together. -/
theorem of_closed (h : K.Closed → Safe K act Q) : Safe K act Q :=
  fun s valid => h valid.program.closed s valid

theorem mono {Q' : Known → α → Prop} (h : Safe K act Q)
    (weaker : ∀ L, K.Sub L → ∀ a, Q L a → Q' L a) : Safe K act Q' := by
  intro s valid
  refine (h s valid).mono ?_ fun f t => id
  rintro a t ⟨L, sub, state, holds⟩
  exact ⟨L, sub, state, weaker L sub a holds⟩

theorem pure {a : α} (h : Q K a) : Safe K (pure a) Q :=
  fun _ valid => Ends.pure ⟨K, .refl K, valid, h⟩

theorem bind {next : α → Emit β} {Q' : Known → β → Prop} (h : Safe K act Q)
    (then_ : ∀ L, K.Sub L → L.Closed → ∀ a, Q L a → Safe L (next a) Q') :
    Safe K (act >>= next) Q' := by
  intro s valid
  refine Ends.bind ((h s valid).mono ?_ fun f t => id)
  rintro a t ⟨L, sub, state, holds⟩
  refine (then_ L sub state.program.closed a holds t state).mono ?_ ?_
  · rintro b u ⟨M, sub', state', holds'⟩
    exact ⟨M, sub.trans sub', state', holds'⟩
  · rintro f u ⟨M, sub', program, excused⟩
    exact ⟨M, sub.trans sub', program, excused⟩

theorem throw {f : Failure} (h : K.Excuses f) : Safe K (throw f : Emit α) Q :=
  fun _ valid => Ends.throw ⟨K, .refl K, valid.program, h⟩

theorem problem (p : Problem) : Safe K (Emit.problem p : Emit α) Q :=
  throw (K.excuses_problem p)

theorem lift {x : Except Failure α} (h : Gives x (Q K) K.Excuses) : Safe K (liftM x) Q := by
  intro s valid
  refine Ends.lift (h.mono ?_ ?_)
  · exact fun a holds => ⟨K, .refl K, valid, holds⟩
  · exact fun f excused => ⟨K, .refl K, valid.program, excused⟩

theorem locating {span : Span} (h : Safe K act Q) : Safe K (Emit.locating span act) Q := by
  intro s valid
  have ends := h s valid
  unfold Ends Emit.locating at *
  cases run : act s with
  | ok a t => simpa [run] using ends
  | error f t => simpa [run] using ends

theorem look {f : Emission → α} (h : ∀ s : Emission, s.Over K → Q K (f s)) :
    Safe K (Emit.look f) Q :=
  fun s valid => ⟨K, .refl K, valid, h s valid⟩

theorem modifyGet {f : Emission → α × Emission}
    (h : ∀ s : Emission, s.Over K → (f s).2.Over K ∧ Q K (f s).1) :
    Safe K (modifyGet f : Emit α) Q :=
  fun s valid => ⟨K, .refl K, (h s valid).1, (h s valid).2⟩

theorem modify {f : Emission → Emission} {Q : Known → Unit → Prop}
    (h : ∀ s : Emission, s.Over K → (f s).Over K ∧ Q K ()) :
    Safe K (modify f : Emit Unit) Q := modifyGet h

/-- Each element in turn. -/
theorem mapM {f : α → Emit β} {xs : List α} {R : Known → α → β → Prop}
    (grow : ∀ K L, K.Sub L → ∀ a b, R K a b → R L a b)
    (h : ∀ L, K.Sub L → ∀ a ∈ xs, Safe L (f a) fun M b => R M a b) :
    Safe K (xs.mapM f) fun L ys => List.Forall₂ (R L) xs ys := by
  induction xs generalizing K with
  | nil => exact pure .nil
  | cons a as ih =>
    rw [List.mapM_cons]
    refine bind (h K (.refl K) a (by simp)) fun L sub _ b hb => ?_
    refine bind (ih fun M sub' c hc => h M (sub.trans sub') c (by simp [hc]))
      fun M sub' _ bs hbs => ?_
    exact pure (.cons (grow L M sub' a b hb) hbs)

theorem forM {f : α → Emit Unit} {xs : List α}
    (h : ∀ L, K.Sub L → ∀ a ∈ xs, Safe L (f a) fun _ _ => True) :
    Safe K (xs.forM f) fun _ _ => True := by
  induction xs generalizing K with
  | nil => exact pure trivial
  | cons a as ih =>
    change Safe K (f a >>= fun _ => as.forM f) _
    refine bind (h K (.refl K) a (by simp)) fun L sub _ _ _ => ?_
    exact ih fun M sub' c hc => h M (sub.trans sub') c (by simp [hc])

/-! ## Blocks, frames and lines -/

/-- The ways in and out only have to keep what is over a set of structs, however they go. -/
theorem bracket {enter leave : Emission → Emission}
    (into : ∀ s : Emission, s.Over K → (enter s).Over K)
    (back : ∀ (L : Known) (s : Emission), s.Over L → (leave s).Over L)
    (same : ∀ s, (leave s).program = s.program) (h : Safe K act Q) :
    Safe K (Emit.bracket enter leave act) Q := by
  refine fun s valid => Ends.bracket ((h _ (into s valid)).mono ?_ ?_)
  · rintro a t ⟨L, sub, state, holds⟩
    exact ⟨L, sub, back L t state, holds⟩
  · rintro f t ⟨L, sub, program, excused⟩
    exact ⟨L, sub, same t ▸ program, excused⟩

theorem inBlock (h : Safe K act Q) : Safe K (Emit.inBlock act) fun L p => Q L p.1 := by
  refine bracket (fun _ => .entered) (fun _ _ => .left) (fun _ => rfl) ?_
  refine bind h fun L _ _ a holds => bind (look (Q := fun M _ => Q M a) fun _ _ => holds) ?_
  exact fun M _ _ ls still => pure still

theorem inFrame {frame : Activation} (frameValid : frame.Over K) (h : Safe K act Q) :
    Safe K (Emit.inFrame frame act) Q := by
  intro s valid
  have ends := h { s with frame } ⟨valid.program, frameValid⟩
  unfold Ends Emit.inFrame at *
  cases run : act { s with frame } with
  | ok a t =>
    rw [run] at ends
    obtain ⟨L, sub, state, holds⟩ := ends
    exact ⟨L, sub, ⟨state.program, valid.frame.mono sub⟩, holds⟩
  | error f t =>
    rw [run] at ends
    exact ends

theorem inLoop {loop : Loop} (h : Safe K act Q) : Safe K (Emit.inLoop loop act) Q :=
  bracket (fun _ own => ⟨own.program, ⟨own.frame.level, own.frame.outer, own.frame.typeParams⟩⟩)
    (fun _ _ own => ⟨own.program, ⟨own.frame.level, own.frame.outer, own.frame.typeParams⟩⟩)
    (fun _ => rfl) h

theorem computing (h : Safe K act Q) : Safe K (Emit.computing act) Q :=
  bracket (fun _ own => ⟨own.program, own.frame⟩) (fun _ _ own => ⟨own.program, own.frame⟩)
    (fun _ => rfl) h

theorem modifyLevel {f : Level → Level} (h : ∀ l, l.Over K → (f l).Over K) :
    Safe K (Emit.modifyLevel f) fun _ _ => True :=
  modify fun s valid => ⟨⟨valid.program, h s.frame.level valid.frame.level, valid.frame.outer,
    valid.frame.typeParams⟩, trivial⟩

theorem lines (ls : List Line) : Safe K (Emit.lines ls) fun _ _ => True :=
  modifyLevel fun _ => id

theorem line (l : Line) : Safe K (Emit.line l) fun _ _ => True := lines [l]

theorem bindName {v : Value} (name : String) (h : v.Over K) :
    Safe K (Emit.bindName name v) fun _ _ => True :=
  modifyLevel fun l level p member => by
    rcases List.mem_cons.mp member with rfl | rest
    · exact h
    · exact level p rest

theorem declareVar (name : String) (ty : Ty) (init : Option Code) (mutable : Bool) :
    Safe K (Emit.declareVar name ty init mutable) fun _ _ => True := line _

theorem nested (h : Safe K act Q) (grow : ∀ L M, L.Sub M → ∀ a, Q L a → Q M a) :
    Safe K (Emit.nested act) Q := by
  refine bind h.inBlock fun L _ _ p hp => ?_
  refine bind (lines p.2) fun M sub _ _ _ => ?_
  exact pure (grow L M sub p.1 hp)

theorem modifyProgram {f : Program → Program} (h : ∀ p : Program, p.Over K → (f p).Over K) :
    Safe K (Emit.modifyProgram f) fun _ _ => True :=
  modify fun s valid => ⟨⟨h s.program valid.program, valid.frame⟩, trivial⟩

theorem modifyOutput (target : Target) (f : Output → Output) :
    Safe K (Emit.modifyProgram fun p => p.modifyOutput target f) fun _ _ => True :=
  modifyProgram fun _ valid => valid.modifyOutput target f

/-- Numbers that are given out change nothing else. -/
theorem numbering {n : Numbering α} {Q : Known → α → Prop}
    (h : ∀ ids : Ids, K.Below ids.next → Ends n ids
      (fun a ids' => ids.next ≤ ids'.next ∧ Q K a)
      (fun f ids' => ids.next ≤ ids'.next ∧ K.Excuses f)) : Safe K (Emit.numbering n) Q := by
  intro s valid
  have ends := h s.program.ids valid.program.below
  have kept (ids : Ids) (grown : s.program.ids.next ≤ ids.next) :
      Program.Over K { s.program with ids } :=
    { valid.program with below := valid.program.below.mono grown }
  unfold Ends Emit.numbering at *
  cases run : n s.program.ids with
  | ok a ids =>
    rw [run] at ends
    exact ⟨K, .refl K, ⟨kept ids ends.1, valid.frame⟩, ends.2⟩
  | error f ids =>
    rw [run] at ends
    exact ⟨K, .refl K, kept ids ends.1, ends.2⟩

theorem fresh (stem : String) : Safe K (Emit.fresh stem) fun _ _ => True :=
  numbering fun ids _ => ⟨Nat.le_succ ids.next, trivial⟩

theorem temp : Safe K Emit.temp fun _ _ => True :=
  numbering fun ids _ => ⟨Nat.le_succ ids.next, trivial⟩

theorem local? (name : String) : Safe K (Emit.local? name) fun L v => ∀ w ∈ v, w.Over L :=
  look fun _ valid _ found => valid.frame.local? found

end Safe

end Ember
