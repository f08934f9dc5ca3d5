import Ember.Lower.Expr
import Ember.Proofs.Safe

/-!
# What lowering leaves alone

Lowering adds to a program the structs that symbols stand for and functions for targets, and
changes nothing that was declared: what was found once is found again. It leaves the blocks around,
the loops and the types of a template as they are and only adds lines to its own block, and an
expression leaves the local names too. All this holds however lowering ends.
-/

set_option autoImplicit false

namespace Ember

/-! ## Sameness -/

/-- What sameness of types looks at. -/
inductive Mark where
  | scalar (kind : ScalarKind)
  | struct (uid : Nat)
  | array (of : Mark) (len : Nat)
  | alt (uids : List Nat)

def Ty.mark : Ty → Mark
  | .scalar k => .scalar k
  | .struct s => .struct s.uid
  | .array of len => .array of.mark len
  | .alt first others => .alt ((first :: others).map Struct.uid)

theorem Ty.beq_iff (a b : Ty) : (a == b) = true ↔ a.mark = b.mark := by
  change a.same b = true ↔ _
  induction a using Ty.induct generalizing b with
  | scalar k => cases b <;> simp [Ty.same, Ty.mark]
  | struct s _ => cases b <;> simp [Ty.same, Ty.mark]
  | array of len ih =>
    cases b with
    | array of' len' => simp [Ty.same, Ty.mark, ih, and_comm]
    | _ => simp [Ty.same, Ty.mark]
  | alt first others _ _ => cases b <;> simp [Ty.same, Ty.mark]

theorem Ty.beq_list_iff (as bs : List Ty) : (as == bs) = true ↔ as.map mark = bs.map mark := by
  induction as generalizing bs with
  | nil => cases bs <;> simp
  | cons a as ih =>
    cases bs with
    | nil => simp
    | cons b bs => simp [List.cons_beq_cons, Ty.beq_iff, ih]

theorem AnonKey.same_iff (a b : AnonKey) : a.same b = true ↔
    a.symbol = b.symbol ∧ a.fields = b.fields ∧ a.types.map Ty.mark = b.types.map Ty.mark := by
  simp [AnonKey.same, Ty.beq_list_iff, and_assoc]

theorem InstanceKey.same_iff (a b : InstanceKey) : a.same b = true ↔
    a.fn = b.fn ∧ a.target = b.target ∧ a.types.map Ty.mark = b.types.map Ty.mark := by
  simp [InstanceKey.same, Ty.beq_list_iff, and_assoc]

/-! ## Programs that grow -/

/-- A program and what it may become while expressions are lowered in it. -/
structure Program.Before (p q : Program) : Prop where
  types : q.env.own.types = p.env.own.types
  functions : q.env.own.functions = p.env.own.functions
  consts : q.env.own.consts = p.env.own.consts
  params : q.env.own.params = p.env.own.params
  root : q.env.root = p.env.root
  builtins : q.builtins = p.builtins
  symbols : ∀ name t, p.env.symbol? name = some t → q.env.symbol? name = some t
  anon : ∀ key s, p.env.anon? key = some s → q.env.anon? key = some s
  instances : ∀ key inst, p.instance? key = some inst → q.instance? key = some inst

namespace Program.Before

variable {p q r : Program}

theorem refl (p : Program) : p.Before p :=
  ⟨rfl, rfl, rfl, rfl, rfl, rfl, fun _ _ => id, fun _ _ => id, fun _ _ => id⟩

theorem trans (first : p.Before q) (second : q.Before r) : p.Before r where
  types := second.types.trans first.types
  functions := second.functions.trans first.functions
  consts := second.consts.trans first.consts
  params := second.params.trans first.params
  root := second.root.trans first.root
  builtins := second.builtins.trans first.builtins
  symbols name t found := second.symbols name t (first.symbols name t found)
  anon key s found := second.anon key s (first.anon key s found)
  instances key inst found := second.instances key inst (first.instances key inst found)

theorem numbered (p : Program) (ids : Ids) : p.Before { p with ids } :=
  ⟨rfl, rfl, rfl, rfl, rfl, rfl, fun _ _ => id, fun _ _ => id, fun _ _ => id⟩

theorem modifyOutput (p : Program) (target : Target) (f : Output → Output) :
    p.Before (p.modifyOutput target f) := by
  cases target <;>
    exact ⟨rfl, rfl, rfl, rfl, rfl, rfl, fun _ _ => id, fun _ _ => id, fun _ _ => id⟩

theorem addSymbol {name : String} (missing : p.env.symbol? name = none) (t : Ty) :
    p.Before (p.modifyScope (·.addSymbol name t)) := by
  refine { refl p with symbols := fun other u found => ?_ }
  have differ : other ≠ name := by
    rintro rfl
    rw [missing] at found
    cases found
  have step : (Program.modifyScope p (·.addSymbol name t)).env.symbol? other =
      p.env.symbol? other := by
    simp [Environment.symbol?, Program.modifyScope, Scope.addSymbol, List.lookup_cons,
      beq_false_of_ne differ]
  rw [step, found]

theorem addAnon {key : AnonKey} (missing : p.env.anon? key = none) (s : Struct) :
    p.Before (p.modifyScope (·.addAnon key s)) := by
  refine { refl p with anon := fun other t found => ?_ }
  by_cases same : key.same other = true
  · -- A struct found for the one key would have been found for the other.
    have congr (k : AnonKey) : k.same other = k.same key := by
      rw [Bool.eq_iff_iff, AnonKey.same_iff, AnonKey.same_iff]
      rw [AnonKey.same_iff] at same
      rw [same.1, same.2.1, same.2.2]
    simp only [Environment.anon?, congr] at found missing
    rw [missing] at found
    cases found
  · have step : (Program.modifyScope p (·.addAnon key s)).env.anon? other = p.env.anon? other := by
      simp [Environment.anon?, Program.modifyScope, Scope.addAnon, same]
    rw [step, found]

/-- A function that was not written may be written later, also if that has happened already on the
way there. -/
theorem addInstance {key : InstanceKey} (missing : p.instance? key = none) (grown : p.Before q)
    (inst : Instance) : p.Before { q with instances := (key, inst) :: q.instances } := by
  refine { grown with instances := fun other known found => ?_ }
  have differ : ¬ key.same other = true := by
    intro same
    have congr (k : InstanceKey) : k.same other = k.same key := by
      rw [Bool.eq_iff_iff, InstanceKey.same_iff, InstanceKey.same_iff]
      rw [InstanceKey.same_iff] at same
      rw [same.1, same.2.1, same.2.2]
    simp only [Program.instance?, congr] at found missing
    rw [missing] at found
    cases found
  have step : Program.instance? { q with instances := (key, inst) :: q.instances } other =
      q.instance? other := by
    simp [Program.instance?, differ]
  rw [step, grown.instances other known found]

end Program.Before

/-! ## Steady actions -/

variable {α β : Type}

/-- A state and what it may become while lowering runs; with `keep`, the local names stay. -/
structure Emission.Before (keep : Bool) (s t : Emission) : Prop where
  program : s.program.Before t.program
  typeParams : t.frame.typeParams = s.frame.typeParams
  outer : t.frame.outer = s.frame.outer
  locals : keep = true → t.frame.level.locals = s.frame.level.locals
  loops : t.frame.loops = s.frame.loops
  constDepth : t.constDepth = s.constDepth
  lines : s.frame.level.lines <+: t.frame.level.lines

namespace Emission.Before

variable {keep : Bool} {s t u : Emission}

theorem refl (s : Emission) : s.Before keep s :=
  ⟨.refl _, rfl, rfl, fun _ => rfl, rfl, rfl, List.prefix_rfl⟩

theorem trans (first : s.Before keep t) (second : t.Before keep u) : s.Before keep u where
  program := first.program.trans second.program
  typeParams := second.typeParams.trans first.typeParams
  outer := second.outer.trans first.outer
  locals k := (second.locals k).trans (first.locals k)
  loops := second.loops.trans first.loops
  constDepth := second.constDepth.trans first.constDepth
  lines := first.lines.trans second.lines

/-- Only the program has changed. -/
theorem grown {p : Program} (h : s.program.Before p) : s.Before keep { s with program := p } :=
  { refl s with program := h }

/-- Dropping the innermost block gives back the one that was there when it was entered. -/
theorem left (h : s.entered.Before false t) : s.Before keep t.left := by
  have outer : t.frame.outer = s.frame.level :: s.frame.outer := h.outer
  refine ⟨h.program, h.typeParams, ?_, fun _ => ?_, h.loops, h.constDepth, ?_⟩
  all_goals simp [Emission.left, outer]

theorem unlooped {loop : Loop} (h : (s.looping loop).Before keep t) : s.Before keep t.unlooped := by
  have loops : t.frame.loops = loop :: s.frame.loops := h.loops
  exact ⟨h.program, h.typeParams, h.outer, h.locals, by simp [Emission.unlooped, loops],
    h.constDepth, h.lines⟩

theorem returned (h : s.called.Before keep t) : s.Before keep t.returned := by
  have depth : t.constDepth = s.constDepth + 1 := h.constDepth
  exact ⟨h.program, h.typeParams, h.outer, h.locals, h.loops, by simp [Emission.returned, depth],
    h.lines⟩

end Emission.Before

/-- An action that lets the program grow and leaves the blocks around alone, also if it fails; with
`keep`, the local names too. -/
def Steady (keep : Bool) (act : Emit α) : Prop :=
  ∀ s, Ends act s (fun _ t => s.Before keep t) (fun _ t => s.Before keep t)

namespace Steady

variable {keep : Bool} {act : Emit α}

theorem ok (h : Steady keep act) {s t : Emission} {a : α} (run : act s = .ok a t) :
    s.Before keep t := (h s).ok run

theorem error (h : Steady keep act) {s t : Emission} {f : Failure} (run : act s = .error f t) :
    s.Before keep t := by
  simpa [Ends, run] using h s

@[grind ←]
theorem pure (a : α) : Steady keep (pure a : Emit α) := fun s => .refl s

@[grind ←]
theorem bind {next : α → Emit β} (h : Steady keep act) (then_ : ∀ a, Steady keep (next a)) :
    Steady keep (act >>= next) := by
  refine fun s => .bind ((h s).mono (fun a m first => ?_) fun _ _ => id)
  exact (then_ a m).mono (fun _ _ => first.trans) fun _ _ => first.trans

@[grind ←]
theorem throw (f : Failure) : Steady keep (throw f : Emit α) := fun s => .refl s

@[grind ←]
theorem problem (p : Problem) : Steady keep (Emit.problem p : Emit α) := throw _

@[grind ←]
theorem defect (d : Defect) : Steady keep (Emit.defect d : Emit α) := throw _

@[grind ←]
theorem lift (x : Except Failure α) : Steady keep (liftM x : Emit α) := by
  cases x with
  | ok a => exact pure a
  | error f => exact throw f

theorem run_lift {x : Except Failure α} {s t : Emission} {a : α}
    (run : (liftM x : Emit α) s = .ok a t) : x = .ok a ∧ t = s := by
  cases x with
  | ok b =>
    cases run
    exact ⟨rfl, rfl⟩
  | error f => cases run

theorem ite {c : Prop} [Decidable c] {other : Emit α} (yes : Steady keep act)
    (no : Steady keep other) : Steady keep (if c then act else other) := by
  split
  · exact yes
  · exact no

@[grind ←]
theorem locating {span : Span} (h : Steady keep act) : Steady keep (Emit.locating span act) := by
  intro s
  unfold Ends Emit.locating
  cases run : act s with
  | ok a t => exact h.ok run
  | error f t => exact h.error run

@[grind ←]
theorem look (f : Emission → α) : Steady keep (Emit.look f) := fun s => .refl s

@[grind ←]
theorem mapM {f : α → Emit β} {xs : List α} (h : ∀ a, Steady keep (f a)) :
    Steady keep (xs.mapM f) := by
  induction xs with
  | nil => exact pure []
  | cons a as ih =>
    rw [List.mapM_cons]
    grind

@[grind ←]
theorem modifyProgram {f : Program → Program} (h : ∀ p : Program, p.Before (f p)) :
    Steady keep (Emit.modifyProgram f) := fun s => .grown (h s.program)

theorem modifyOutput (target : Target) (f : Output → Output) :
    Steady keep (Emit.modifyProgram fun p => p.modifyOutput target f) :=
  modifyProgram fun p => .modifyOutput p target f

theorem ends_look {f : Emission → α} {next : α → Emit β} {s : Emission}
    {good : β → Emission → Prop} {bad : Failure → Emission → Prop}
    (h : Ends (next (f s)) s good bad) : Ends (Emit.look f >>= next) s good bad := h

theorem ends_modifyProgram {f : Program → Program} {next : Unit → Emit β} {s : Emission}
    {good : β → Emission → Prop} {bad : Failure → Emission → Prop}
    (h : Ends (next ()) { s with program := f s.program } good bad) :
    Ends (Emit.modifyProgram f >>= next) s good bad := h

theorem ends_numbering (n : Numbering α) (s : Emission) : Ends (Emit.numbering n) s
    (fun _ t => ∃ ids, t = { s with program := { s.program with ids } })
    (fun _ t => ∃ ids, t = { s with program := { s.program with ids } }) := by
  unfold Ends Emit.numbering
  cases n s.program.ids with
  | ok a ids => exact ⟨ids, rfl⟩
  | error f ids => exact ⟨ids, rfl⟩

@[grind ←]
theorem numbering (n : Numbering α) : Steady keep (Emit.numbering n) := by
  refine fun s => (ends_numbering n s).mono ?_ ?_
  all_goals
    rintro _ _ ⟨ids, rfl⟩
    exact .grown (.numbered _ ids)

@[grind ←]
theorem fresh (stem : String) : Steady keep (Emit.fresh stem) := numbering _

@[grind ←]
theorem temp : Steady keep Emit.temp := numbering _

@[grind ←]
theorem voidTy : Steady keep Emit.voidTy := look _

@[grind ←]
theorem voidValue : Steady keep Emit.voidValue := by
  unfold Emit.voidValue
  grind

@[grind ←]
theorem vectorTy (k : ScalarKind) (w : Nat) : Steady keep (Emit.vectorTy k w) := by
  unfold Emit.vectorTy
  grind

@[grind ←]
theorem lines (ls : List Line) : Steady keep (Emit.lines ls) :=
  fun _ => ⟨.refl _, rfl, rfl, fun _ => rfl, rfl, rfl, List.prefix_append _ _⟩

@[grind ←]
theorem line (l : Line) : Steady keep (Emit.line l) := lines [l]

@[grind ←]
theorem bindName (name : String) (v : Value) : Steady false (Emit.bindName name v) :=
  fun _ => ⟨.refl _, rfl, rfl, by simp, rfl, rfl, List.prefix_rfl⟩

@[grind ←]
theorem local? (name : String) : Steady keep (Emit.local? name) := look _

@[grind ←]
theorem declareVar (name : String) (ty : Ty) (init : Option Code) (mutable : Bool) :
    Steady keep (Emit.declareVar name ty init mutable) := line _

theorem bracket {enter leave : Emission → Emission} {inner : Bool} (h : Steady inner act)
    (back : ∀ s t : Emission, (enter s).Before inner t → s.Before keep (leave t)) :
    Steady keep (Emit.bracket enter leave act) :=
  fun s => .bracket ((h (enter s)).mono (fun _ t => back s t) fun _ t => back s t)

@[grind ←]
theorem inBlock (h : Steady false act) : Steady keep (Emit.inBlock act) :=
  bracket (bind h fun _ => bind (look _) fun _ => pure _) fun _ _ => .left

@[grind ←]
theorem nested (h : Steady false act) : Steady keep (Emit.nested act) := by
  unfold Emit.nested
  grind

@[grind ←]
theorem inFrame {frame : Activation} (h : Steady false act) :
    Steady keep (Emit.inFrame frame act) := by
  intro s
  unfold Ends Emit.inFrame
  cases run : act { s with frame } with
  | ok a t => exact { Emission.Before.refl s with
      program := (h.ok run).program, constDepth := (h.ok run).constDepth }
  | error f t => exact { Emission.Before.refl s with
      program := (h.error run).program, constDepth := (h.error run).constDepth }

@[grind ←]
theorem inLoop {loop : Loop} (h : Steady keep act) : Steady keep (Emit.inLoop loop act) :=
  bracket h fun _ _ => .unlooped

@[grind ←]
theorem computing (h : Steady keep act) : Steady keep (Emit.computing act) :=
  bracket h fun _ _ => .returned

/-! ## Parts of values and operations -/

section Parts

variable (target : Target)

@[grind ←]
theorem expect (v : Value) (goal : Ty) (span : Span) :
    Steady keep (Emit.expect target v goal span) := by
  unfold Emit.expect
  grind

@[grind ←]
theorem cache (v : Value) : Steady keep (Emit.cache target v) := by
  unfold Emit.cache
  grind

@[grind ←]
theorem cachedCode (v : Value) : Steady keep (Emit.cachedCode target v) := by
  unfold Emit.cachedCode
  grind

@[grind ←]
theorem discard (v : Value) : Steady keep (Emit.discard target v) := by
  unfold Emit.discard
  grind

mutual

theorem scalarsAt : ∀ (t : Ty) (v : Value), Steady keep (Emit.scalarsAt target t v)
  | .scalar _, v => by
    rw [Emit.scalarsAt]
    exact pure [v]
  | .struct s, v => by
    rw [Emit.scalarsAt]
    exact ite (structScalars s v) (defect _)
  | .array of len, v => by
    rw [Emit.scalarsAt]
    exact defect _
  | .alt first others, v => by
    rw [Emit.scalarsAt]
    exact defect _

theorem structScalars : ∀ (s : Struct) (v : Value), Steady keep (Emit.structScalars target s v)
  | ⟨_, _, _, fields, _, _, _⟩, v => by
    rw [Emit.structScalars]
    exact bind (cache target v) fun w => fieldScalars 0 fields w

theorem fieldScalars : ∀ (i : Nat) (fs : List Field) (v : Value),
    Steady keep (Emit.fieldScalars target i fs v)
  | _, [], _ => by
    rw [Emit.fieldScalars]
    exact pure []
  | i, ⟨_, ty⟩ :: fs, v => by
    rw [Emit.fieldScalars]
    refine ite (fieldScalars (i + 1) fs v) (bind (lift _) fun component => ?_)
    refine bind (scalarsAt ty component) fun scalars => ?_
    exact bind (fieldScalars (i + 1) fs v) fun _ => pure _

end

@[grind ←]
theorem scalars (v : Value) : Steady keep (Emit.scalars target v) := scalarsAt target v.ty v

@[grind ←]
theorem swizzleTo (base : Value) (indices : List Nat) (ty : Ty) :
    Steady keep (Emit.swizzleTo target base indices ty) := by
  unfold Emit.swizzleTo
  refine ite (by grind) (bind (scalars target base) fun vs => ?_)
  refine bind (mapM fun i => ?_) fun _ => lift _
  split
  · exact pure _
  · exact defect _

@[grind ←]
theorem swizzle (base : Value) (indices : List Nat) :
    Steady keep (Emit.swizzle target base indices) := by
  unfold Emit.swizzle
  grind

@[grind ←]
theorem fieldNamed (base : Value) (field : Ident) :
    Steady keep (Emit.fieldNamed target base field) := by
  unfold Emit.fieldNamed
  grind

@[grind ←]
theorem elementCode (base i : Value) (of : Ty) :
    Steady keep (Emit.elementCode target base i of) := by
  unfold Emit.elementCode
  grind

@[grind ←]
theorem index (base i : Value) : Steady keep (Emit.index target base i) := by
  unfold Emit.index
  split
  · exact problem _
  · refine bind (lift _) fun i => ?_
    split
    · exact elementCode target base _ _
    · refine ite (problem _) ?_
      split
      · exact elementCode target base _ _
      · split
        · exact pure _
        · exact defect _

@[grind ←]
theorem components (vs : List Value) : Steady keep (Emit.components target vs) := by
  induction vs with
  | nil => exact pure []
  | cons v vs ih =>
    rw [Emit.components]
    grind

@[grind ←]
theorem checkDivisor (op : ScalarOp) (kind : ScalarKind) (args : List Value) :
    Steady keep (Emit.checkDivisor target op kind args) := by
  unfold Emit.checkDivisor
  grind

@[grind ←]
theorem mapTo (op : ScalarOp) (kind : ScalarKind) (width : Nat) (inTy outTy : Ty)
    (args : List Value) : Steady keep (Emit.mapTo target op kind width inTy outTy args) := by
  unfold Emit.mapTo
  refine bind (checkDivisor target op kind args) fun _ => ite (by grind) ?_
  exact bind (components target args) fun parts => bind (mapM fun i => by grind) fun _ => lift _

@[grind ←]
theorem mapOp (op : ScalarOp) (args : List Value) : Steady keep (Emit.mapOp target op args) := by
  unfold Emit.mapOp
  refine bind (lift _) fun shaped => ?_
  split
  · exact defect _
  · rename_i kind width _
    have rest (outTy : Ty) : Steady keep
        (Emit.mapTo target op kind width (shaped.getD (.scalar kind)) outTy args) :=
      mapTo target op kind width _ outTy args
    dsimp only
    split
    · exact bind (pure _) rest
    · exact bind (vectorTy _ _) rest

@[grind ←]
theorem reduceScalars (r : Reduction) (kind : ScalarKind) (args : List Value) :
    Steady keep (Emit.reduceScalars target r kind args) := by
  unfold Emit.reduceScalars
  refine bind (components target args) fun parts => bind (lift _) fun found => ?_
  split
  · exact lift _
  · exact defect _

theorem wholeOrScalars (r : Reduction) (kind : ScalarKind) (args : List Value)
    (whole : Option Code) : Steady keep (match whole with
      | some c => Pure.pure (Value.code c r.resultTy)
      | none => Emit.reduceScalars target r kind args) := by
  split
  · exact pure _
  · exact reduceScalars target r kind args

@[grind ←]
theorem reduce (r : Reduction) (args : List Value) : Steady keep (Emit.reduce target r args) := by
  unfold Emit.reduce
  refine bind (lift _) fun _ => ?_
  split
  · exact defect _
  · rename_i kind width _
    dsimp only
    split
    · exact bind (mapM fun v => lift _) fun codes =>
        bind (pure _) (wholeOrScalars target r kind args)
    · exact bind (pure _) (wholeOrScalars target r kind args)

@[grind ←]
theorem normalize (v : Value) : Steady keep (Emit.normalize target v) := by
  unfold Emit.normalize
  grind

@[grind ←]
theorem columns (m : Value) (i : Nat) (fs : List Field) :
    Steady keep (Emit.columns target m i fs) := by
  induction fs generalizing i with
  | nil => exact pure []
  | cons f fs ih =>
    rw [Emit.columns]
    grind

@[grind ←]
theorem multiplyScalars (s : Struct) (m v : Value) :
    Steady keep (Emit.multiplyScalars target s m v) := by
  unfold Emit.multiplyScalars
  refine bind (cache target m) fun m => bind (cache target v) fun v => ?_
  refine bind (scalars target v) fun scales => bind (columns target m 0 _) fun cols => ?_
  exact bind (mapM fun row => lift _) fun _ => bind (vectorTy _ _) fun _ => lift _

@[grind ←]
theorem matrixProduct (m v : Value) : Steady keep (Emit.matrixProduct target m v) := by
  unfold Emit.matrixProduct
  refine ite (bind (lift _) fun _ => bind (lift _) fun _ => pure _) ?_
  split
  · exact multiplyScalars target _ m v
  · exact defect _

end Parts

end Steady

/-! ## Rules of lowering -/

class Lowering.IsSteady (cx : Lowering) : Prop where
  expr : ∀ keep e, Steady keep (cx.expr e)
  block : ∀ b, Steady false (cx.block b)
  join : ∀ keep cond yes no what, Steady keep (cx.join cond yes no what)
  user : ∀ keep f args typeArgs span, Steady keep (cx.user f args typeArgs span)

namespace UserFn

def sign (f : UserFn) (cx : Lowering) (typeArgs : List Ty) : Emit Instance := do
  let (params, ret) ← f.signature cx typeArgs
  let backend ← match f.backend, typeArgs with
    | some name, [] => pure name
    | _, _ => Emit.fresh f.stem
  return ⟨backend, params, ret⟩

def write (f : UserFn) (cx : Lowering) (inst : Instance) (typeArgs : List Ty) : Emit Unit := do
  let code ← f.emit cx inst typeArgs
  Emit.modifyProgram fun p => p.modifyOutput cx.target fun o =>
    { o with functions := o.functions ++ [code] }

theorem instantiate_eq (f : UserFn) (cx : Lowering) (typeArgs : List Ty) :
    f.instantiate cx typeArgs = (do
      match (← Emit.look (·.program)).instance? ⟨f.id, cx.target, typeArgs⟩ with
      | some inst => return inst
      | none =>
        let inst ← f.sign cx typeArgs
        Emit.modifyProgram fun p =>
          { p with instances := (⟨f.id, cx.target, typeArgs⟩, inst) :: p.instances }
        f.write cx inst typeArgs
        return inst) := by
  unfold instantiate sign write
  refine bind_congr fun p => ?_
  dsimp only
  cases p.instance? ⟨f.id, cx.target, typeArgs⟩ with
  | some inst => rfl
  | none =>
    rw [bind_assoc]
    refine bind_congr fun types => ?_
    cases f.backend <;> cases typeArgs <;> simp only [bind_assoc, pure_bind]

end UserFn

namespace Steady

open Lowering

variable {keep : Bool} {cx : Lowering} [cx.IsSteady]

@[grind ←]
theorem expr (e : Expr) : Steady keep (cx.expr e) := IsSteady.expr keep e

@[grind ←]
theorem block (b : Block) : Steady false (cx.block b) := IsSteady.block b

@[grind ←]
theorem join (cond : Value) (yes no : Side) (what : String) :
    Steady keep (cx.join cond yes no what) := IsSteady.join keep cond yes no what

@[grind ←]
theorem user (f : UserFn) (args : List Value) (typeArgs : List Ty) (span : Span) :
    Steady keep (cx.user f args typeArgs span) := IsSteady.user keep f args typeArgs span

/-! ### Types and calls -/

@[grind ←]
theorem arrayLength (len : Expr) : Steady keep (cx.arrayLength len) := by
  unfold Lowering.arrayLength
  grind

omit [cx.IsSteady] in
@[grind ←]
theorem namedTy (name : String) : Steady keep (Lowering.namedTy name) := by
  unfold Lowering.namedTy
  grind

omit [cx.IsSteady] in
@[grind ←]
theorem memberStructs (ty : Ty) (span : Span) : Steady keep (Lowering.memberStructs ty span) := by
  unfold Lowering.memberStructs
  grind

omit [cx.IsSteady] in
mutual

theorem type [cx.IsSteady] : ∀ t : TypeExpr, Steady keep (cx.type t)
  | ⟨.empty, _⟩ => by
    rw [Lowering.type]
    grind
  | ⟨.named name args, _⟩ => by
    rw [Lowering.type]
    grind
  | ⟨.array of len, _⟩ => by
    have element := type of
    rw [Lowering.type]
    grind
  | ⟨.alt members, _⟩ => by
    have structs := memberTypes members
    rw [Lowering.type]
    grind

theorem memberTypes [cx.IsSteady] : ∀ ts : List TypeExpr, Steady keep (cx.memberTypes ts)
  | [] => by
    rw [Lowering.memberTypes]
    exact pure []
  | ⟨kind, span⟩ :: ts => by
    have first := type ⟨kind, span⟩
    have rest := memberTypes ts
    rw [Lowering.memberTypes]
    grind

end

attribute [grind ←] type memberTypes

@[grind ←]
theorem types (ts : List TypeExpr) : Steady keep (cx.types ts) := mapM type

@[grind ←]
theorem signature (f : UserFn) (typeArgs : List Ty) : Steady keep (f.signature cx typeArgs) := by
  unfold UserFn.signature
  refine inFrame (bind (types _) fun params => ?_)
  dsimp only
  split
  · exact bind (type _) fun ret => pure _
  · exact bind voidTy fun ret => pure _

omit [cx.IsSteady] in
@[grind ←]
theorem bindParams (ps : List FnParam) (tys : List Ty) :
    Steady false (UserFn.bindParams ps tys) := by
  induction ps generalizing tys with
  | nil => exact pure []
  | cons p ps ih =>
    cases tys with
    | nil => exact pure []
    | cons ty tys =>
      rw [UserFn.bindParams]
      grind

@[grind ←]
theorem sourceText (parts : List SourcePart) : Steady keep (UserFn.sourceText cx parts) := by
  induction parts with
  | nil => exact pure ""
  | cons part parts ih =>
    cases part with
    | text t =>
      rw [UserFn.sourceText]
      grind
    | interp e =>
      rw [UserFn.sourceText]
      grind

@[grind ←]
theorem sourceBody (blocks : List SourceBlock) : Steady keep (UserFn.sourceBody cx blocks) := by
  unfold UserFn.sourceBody
  grind

omit [cx.IsSteady] in
@[grind ←]
theorem locatingTail {α : Type} {act : Emit α} (body : Block) (h : Steady keep act) :
    Steady keep (UserFn.locatingTail body act) := by
  unfold UserFn.locatingTail
  split
  · exact locating h
  · exact h

@[grind ←]
theorem ordinaryBody (f : UserFn) (ret : Ty) : Steady false (f.ordinaryBody cx ret) := by
  unfold UserFn.ordinaryBody
  grind

@[grind ←]
theorem emit (f : UserFn) (inst : Instance) (typeArgs : List Ty) :
    Steady keep (f.emit cx inst typeArgs) := by
  unfold UserFn.emit
  refine inFrame (bind (bindParams _ _) fun params => bind (inBlock ?_) fun found => pure _)
  split
  · exact sourceBody _
  · exact ordinaryBody f _

theorem sign (f : UserFn) (typeArgs : List Ty) : Steady keep (f.sign cx typeArgs) := by
  unfold UserFn.sign
  refine bind (signature f typeArgs) fun types => ?_
  dsimp only
  split
  · exact bind (pure _) fun backend => pure _
  · exact bind (fresh _) fun backend => pure _

theorem write (f : UserFn) (inst : Instance) (typeArgs : List Ty) :
    Steady keep (f.write cx inst typeArgs) :=
  bind (emit f inst typeArgs) fun _ => modifyOutput _ _

@[grind ←]
theorem instantiate (f : UserFn) (typeArgs : List Ty) :
    Steady keep (f.instantiate cx typeArgs) := by
  intro s
  rw [UserFn.instantiate_eq]
  refine ends_look ?_
  cases missing : s.program.instance? ⟨f.id, cx.target, typeArgs⟩ with
  | some inst => exact .refl s
  | none =>
    refine .bind ((sign f typeArgs s).mono (fun inst m signed => ?_) fun _ _ => id)
    -- Reading the signature may list the function too, so the program before that is what counts.
    have listed : s.Before keep { m with program := { m.program with
        instances := (⟨f.id, cx.target, typeArgs⟩, inst) :: m.program.instances } } :=
      { signed with program := signed.program.addInstance missing inst }
    refine ends_modifyProgram ?_
    exact .bind ((write f inst typeArgs _).mono (fun _ _ => listed.trans) fun _ _ => listed.trans)

omit [cx.IsSteady] in
@[grind ←]
theorem bindArgs (ps : List FnParam) (vs : List Value) : Steady false (UserFn.bindArgs ps vs) := by
  induction ps generalizing vs with
  | nil => exact pure ()
  | cons p ps ih =>
    cases vs with
    | nil => exact pure ()
    | cons v vs =>
      rw [UserFn.bindArgs]
      exact bind (bindName _ _) fun _ => ih vs

@[grind ←]
theorem compute (f : UserFn) (inst : Instance) (args : List Value) (typeArgs : List Ty) :
    Steady keep (f.compute cx inst args typeArgs) := by
  unfold UserFn.compute
  refine bind (computing (inFrame (inBlock ?_))) fun found => pure _
  exact bind (bindArgs _ _) fun _ => bind (block _) fun v => lift _

omit [cx.IsSteady] in
@[grind ←]
theorem convertArgs (span : Span) (vs : List Value) (tys : List Ty) :
    Steady keep (UserFn.convertArgs cx span vs tys) := by
  induction vs generalizing tys with
  | nil => exact pure []
  | cons v vs ih =>
    cases tys with
    | nil => exact pure []
    | cons ty tys =>
      rw [UserFn.convertArgs]
      grind

omit [cx.IsSteady] in
@[grind ←]
theorem writeCall (inst : Instance) (args : List Value) :
    Steady keep (UserFn.writeCall cx inst args) := by
  unfold UserFn.writeCall
  grind

@[grind ←]
theorem answer (f : UserFn) (inst : Instance) (args : List Value) (typeArgs : List Ty)
    (span : Span) : Steady keep (f.answer cx inst args typeArgs span) := by
  unfold UserFn.answer
  grind

@[grind ←]
theorem run (b : Behaviour) (args : List Value) (typeArgs : List Ty) (span : Span) :
    Steady keep (b.run cx args typeArgs span) := by
  unfold Behaviour.run
  split
  · exact lift _
  · exact bind (cache cx.target _) fun v => lift _
  all_goals first
    | exact lift _
    | exact defect _
    | exact matrixProduct cx.target _ _
    | exact mapOp cx.target _ _
    | exact reduce cx.target _ _
    | exact normalize cx.target _
    | exact user _ _ _ _

@[grind ←]
theorem dispatch (display : String) (candidates : List Candidate) (args : List Value)
    (typeArgs : List Ty) (span : Span) :
    Steady keep (cx.dispatch display candidates args typeArgs span) := by
  unfold Lowering.dispatch
  grind

@[grind ←]
theorem call (name : String) (args : List Value) (typeArgs : List Ty) (span : Span) :
    Steady keep (cx.call name args typeArgs span) := by
  unfold Lowering.call
  grind

@[grind ←]
theorem callBuiltin (name : String) (args : List Value) (typeArgs : List Ty) (span : Span) :
    Steady keep (cx.callBuiltin name args typeArgs span) := by
  unfold Lowering.callBuiltin
  grind

@[grind ←]
theorem operator (key symbol : String) (args : List Value) (span : Span) :
    Steady keep (cx.operator key symbol args span) := by
  unfold Lowering.operator
  grind

/-! ### Patterns and literals -/

omit [cx.IsSteady] in
@[grind ←]
theorem patternStruct (name : Ident) (ty : Ty) : Steady keep (Lowering.patternStruct name ty) := by
  unfold Lowering.patternStruct
  grind

omit [cx.IsSteady] in
@[grind ←]
theorem patternField (s : Struct) (field : Ident) :
    Steady keep (Lowering.patternField s field) := by
  unfold Lowering.patternField
  grind

omit [cx.IsSteady] in
@[grind ←]
theorem checkFields (s : Struct) (names : List String) :
    Steady keep (Lowering.checkFields s names) := by
  unfold Lowering.checkFields
  grind

omit [cx.IsSteady] in
@[grind ←]
theorem checkArrayPattern (ty : Ty) (count : Nat) (rest : Bool) :
    Steady keep (Lowering.checkArrayPattern ty count rest) := by
  unfold Lowering.checkArrayPattern
  grind

omit [cx.IsSteady] in
@[grind ←]
theorem elementAt (v : Value) (i : Nat) : Steady keep (cx.elementAt v i) := index cx.target _ _

omit [cx.IsSteady] in
@[grind ←]
theorem bindLocal (name : String) (mutable : Bool) (v : Value) :
    Steady false (cx.bindLocal name mutable v) := by
  unfold Lowering.bindLocal
  grind

omit [cx.IsSteady] in
mutual

theorem bindPattern : ∀ (p : Pat) (v : Value), Steady false (cx.bindPattern p v)
  | ⟨.ignore, _⟩, v => by
    rw [Lowering.bindPattern]
    exact discard cx.target v
  | ⟨.lit _, _⟩, _ => by
    rw [Lowering.bindPattern]
    exact pure ()
  | ⟨.bind name mutable, _⟩, v => by
    rw [Lowering.bindPattern]
    exact bindLocal name mutable v
  | ⟨.struct name fields rest, span⟩, v => by
    have each (s : Struct) (w : Value) := bindFields s fields w
    rw [Lowering.bindPattern]
    grind
  | ⟨.array items rest, _⟩, v => by
    have each (w : Value) := bindItems 0 items w
    rw [Lowering.bindPattern]
    grind

theorem bindFields (s : Struct) : ∀ (fs : List FieldPat) (v : Value),
    Steady false (cx.bindFields s fs v)
  | [], _ => by
    rw [Lowering.bindFields]
    exact pure ()
  | ⟨name, pat⟩ :: fs, v => by
    have rest := bindFields s fs v
    have part (w : Value) := bindPattern pat w
    rw [Lowering.bindFields]
    grind

theorem bindItems (i : Nat) : ∀ (ps : List Pat) (v : Value), Steady false (cx.bindItems i ps v)
  | [], _ => by
    rw [Lowering.bindItems]
    exact pure ()
  | p :: ps, v => by
    have rest := bindItems (i + 1) ps v
    have part (w : Value) := bindPattern p w
    rw [Lowering.bindItems]
    grind

end

attribute [grind ←] bindPattern bindFields bindItems

@[grind ←]
theorem both (a b : Value) (span : Span) : Steady keep (cx.both a b span) := by
  unfold Lowering.both
  grind

mutual

theorem testPattern : ∀ (p : Pat) (v : Value), Steady keep (cx.testPattern p v)
  | ⟨.ignore, _⟩, _ => by
    rw [Lowering.testPattern]
    exact pure _
  | ⟨.bind _ _, _⟩, _ => by
    rw [Lowering.testPattern]
    exact pure _
  | ⟨.lit l, span⟩, v => by
    rw [Lowering.testPattern]
    exact operator _ _ _ _
  | ⟨.struct name fields _, span⟩, v => by
    have each (s : Struct) := testFields span s (.bool true) fields v
    rw [Lowering.testPattern]
    exact bind (patternStruct _ _) each
  | ⟨.array items rest, span⟩, v => by
    have each := testItems span 0 (.bool true) items v
    rw [Lowering.testPattern]
    exact bind (checkArrayPattern _ _ _) fun _ => each

theorem testFields (span : Span) (s : Struct) (all : Value) : ∀ (fs : List FieldPat) (v : Value),
    Steady keep (cx.testFields span s all fs v)
  | [], _ => by
    rw [Lowering.testFields]
    exact pure all
  | ⟨name, pat⟩ :: fs, v => by
    have rest (all : Value) := testFields span s all fs v
    have part (w : Value) := testPattern pat w
    rw [Lowering.testFields]
    grind

theorem testItems (span : Span) (i : Nat) (all : Value) : ∀ (ps : List Pat) (v : Value),
    Steady keep (cx.testItems span i all ps v)
  | [], _ => by
    rw [Lowering.testItems]
    exact pure all
  | p :: ps, v => by
    have rest (all : Value) := testItems span (i + 1) all ps v
    have part (w : Value) := testPattern p w
    rw [Lowering.testItems]
    grind

end

attribute [grind ←] testPattern testFields testItems

omit [cx.IsSteady] in
@[grind ←]
theorem symbolTy (name : String) : Steady keep (Lowering.symbolTy name) := by
  intro s
  unfold Lowering.symbolTy
  refine ends_look ?_
  dsimp only
  cases missing : s.program.env.symbol? name with
  | some ty => exact .refl s
  | none =>
    refine .bind ((ends_numbering _ s).mono ?_ ?_)
    · rintro struct _ ⟨ids, rfl⟩
      have grown := Program.Before.addSymbol (p := { s.program with ids }) missing (.struct struct)
      exact .grown ((Program.Before.numbered s.program ids).trans grown)
    · rintro _ _ ⟨ids, rfl⟩
      exact .grown (.numbered _ ids)

omit [cx.IsSteady] in
@[grind ←]
theorem declareSlots (s : Struct) : Steady keep (Lowering.declareSlots s) := by
  unfold Lowering.declareSlots
  split
  · exact modifyOutput _ _
  · exact pure ()

omit [cx.IsSteady] in
theorem declareSlots_env (struct : Struct) (s : Emission) : Ends (Lowering.declareSlots struct) s
    (fun _ t => s.Before keep t ∧ t.program.env = s.program.env) (fun _ t => s.Before keep t) := by
  unfold Lowering.declareSlots
  split
  · exact ⟨.grown (.modifyOutput _ _ _), rfl⟩
  · exact ⟨.refl s, rfl⟩

omit [cx.IsSteady] in
@[grind ←]
theorem anonStruct (symbol : String) (values : List (Ident × Value)) :
    Steady keep (Lowering.anonStruct symbol values) := by
  intro s
  unfold Lowering.anonStruct
  dsimp only
  generalize values.map (fun p => (⟨p.1.name, p.2.ty⟩ : Field)) = fields
  generalize (⟨symbol, fields.map Field.name, fields.map Field.ty⟩ : AnonKey) = key
  refine ends_look ?_
  cases missing : s.program.env.anon? key with
  | some struct => exact .refl s
  | none =>
    refine .bind ((ends_numbering _ s).mono ?_ ?_)
    · rintro struct _ ⟨ids, rfl⟩
      have numbered : s.Before keep { s with program := { s.program with ids } } :=
        .grown (.numbered _ ids)
      refine .bind ((declareSlots_env struct _).mono ?_ fun _ _ => numbered.trans)
      rintro _ m ⟨slots, env⟩
      have missing : m.program.env.anon? key = none := by rw [env]; exact missing
      exact (numbered.trans slots).trans (.grown (.addAnon missing struct))
    · rintro _ _ ⟨ids, rfl⟩
      exact .grown (.numbered _ ids)

omit [cx.IsSteady] in
@[grind ←]
theorem headStruct (head : StructHead) (values : List (Ident × Value)) :
    Steady keep (Lowering.headStruct head values) := by
  unfold Lowering.headStruct
  grind

@[grind ←]
theorem initValues (seen : List Ident) (inits : List FieldInit) :
    Steady keep (cx.initValues seen inits) := by
  induction inits generalizing seen with
  | nil => exact pure []
  | cons init inits ih =>
    obtain ⟨name, e⟩ := init
    rw [Lowering.initValues]
    grind

omit [cx.IsSteady] in
@[grind ←]
theorem placeValues (s : Struct) (values : List (Ident × Value)) :
    Steady keep (cx.placeValues s values) := by
  induction values with
  | nil => exact pure []
  | cons value values ih =>
    rw [Lowering.placeValues]
    grind

@[grind ←]
theorem structLit (head : StructHead) (inits : List FieldInit) :
    Steady keep (cx.structLit head inits) := by
  unfold Lowering.structLit
  grind

@[grind ←]
theorem elements (es : List Expr) : Steady keep (cx.elements es) := by
  induction es with
  | nil => exact pure []
  | cons e es ih =>
    rw [Lowering.elements]
    grind

@[grind ←]
theorem arrayLit (items : List Expr) : Steady keep (cx.arrayLit items) := by
  unfold Lowering.arrayLit
  refine bind (elements items) fun values => ?_
  split
  · exact problem _
  · refine bind (lift _) fun of => bind (lift _) fun ty => bind (mapM fun v => lift _) fun vs => ?_
    split
    · exact pure _
    · exact bind (mapM fun v => lift _) fun _ => pure _

/-! ### Control, statements and expressions -/

omit [cx.IsSteady] in
@[grind ←]
theorem joinSides (target : Target) (cond : Value) (yes no : Side) (what : String) :
    Steady keep (Lowering.joinSides target cond yes no what) := by
  unfold Lowering.joinSides
  refine bind (lift _) fun ty => ?_
  refine bind (lift _) fun a => bind (lift _) fun b => bind (lift _) fun c => ?_
  grind

@[grind ←]
theorem ifElse (cond : Expr) (thenBlock : Block) (elseBranch : Option Expr) :
    Steady keep (cx.ifElse cond thenBlock elseBranch) := by
  unfold Lowering.ifElse
  refine bind (expr _) fun v => bind (expect _ _ _ _) fun c => ?_
  split
  · exact nested (block _)
  · exact expr _
  · exact voidValue
  · refine bind (inBlock (block _)) fun yes => ?_
    dsimp only
    split
    · exact bind (inBlock (expr _)) fun no => join _ _ _ _
    · exact bind voidValue fun v => bind (pure _) fun no => join _ _ _ _

@[grind ←]
theorem arm (subject : Value) (a : MatchArm) : Steady false (cx.arm subject a) := by
  unfold Lowering.arm
  exact bind (bindPattern _ _) fun _ => expr _

@[grind ←]
theorem arms (subject : Value) (span : Span) (all : List MatchArm) :
    Steady keep (cx.arms subject span all) := by
  induction all generalizing keep with
  | nil =>
    rw [Lowering.arms]
    grind
  | cons a rest ih =>
    rw [Lowering.arms]
    refine bind (locating (testPattern _ _)) fun test => ?_
    split
    · exact nested (arm subject a)
    · exact ih
    · refine bind (inBlock (arm subject a)) fun yes => bind (inBlock ih) fun no => ?_
      exact join _ _ _ _

@[grind ←]
theorem matchArms (subject : Expr) (all : List MatchArm) (span : Span) :
    Steady keep (cx.matchArms subject all span) := by
  unfold Lowering.matchArms
  grind

omit [cx.IsSteady] in
@[grind ←]
theorem loopLabel (label : Option Ident) : Steady keep (cx.loopLabel label) := by
  unfold Lowering.loopLabel
  grind

@[grind ←]
theorem rangeCounter (pat : Pat) (start stop : Expr) :
    Steady keep (cx.rangeCounter pat start stop) := by
  unfold Lowering.rangeCounter
  refine bind (expr _) fun _ => bind (expect _ _ _ _) fun a => bind (expr _) fun _ => ?_
  grind

@[grind ←]
theorem arrayCounter (iter : Expr) : Steady keep (cx.arrayCounter iter) := by
  unfold Lowering.arrayCounter
  grind

@[grind ←]
theorem counter (pat : Pat) (iter : Expr) : Steady keep (cx.counter pat iter) := by
  unfold Lowering.counter
  grind

/-- A loop over what its pattern takes. -/
theorem takenLoop (label : Option Ident) (pat : Pat) (iter : Expr) (body : Block) :
    Steady keep (do
      let backend ← cx.loopLabel label
      let c ← cx.counter pat iter
      let (_, ls) ← Emit.inLoop ⟨label.map Ident.name, backend⟩ (Emit.inBlock do
        cx.bindPattern pat c.element
        Emit.discard cx.target (← cx.block body))
      Emit.line (.loop backend c.var c.start c.stop ls)
      Emit.voidValue) := by
  refine bind (loopLabel label) fun backend => bind (counter pat iter) fun c => ?_
  refine bind (inLoop (inBlock (bind (bindPattern _ _) fun _ => ?_))) fun found => ?_
  · exact bind (block body) fun _ => discard cx.target _
  · exact bind (line _) fun _ => voidValue

@[grind ←]
theorem forLoop (label : Option Ident) (pat : Pat) (iter : Expr) (body : Block) :
    Steady keep (cx.forLoop label pat iter body) := by
  unfold Lowering.forLoop
  split
  · exact bind (locating (problem _)) fun _ => takenLoop label pat iter body
  · exact takenLoop label pat iter body

@[grind ←]
theorem letBind (pat : Pat) (ty : Option TypeExpr) (value : Expr) :
    Steady false (cx.letBind pat ty value) := by
  have rest (v : Value) : Steady false (do
      if !pat.isIrrefutable then Emit.locating pat.span (Emit.problem (.refutable "let"))
      cx.bindPattern pat v) := by
    have bound : Steady false (cx.bindPattern pat v) := bindPattern pat v
    grind
  unfold Lowering.letBind
  refine bind (expr _) fun v => ?_
  dsimp only
  split
  · exact bind (type _) fun t => bind (expect _ _ _ _) rest
  · exact bind (pure _) rest

@[grind ←]
theorem assigned (op : AssignOp) (place v : Value) (span : Span) :
    Steady keep (cx.assigned op place v span) := by
  unfold Lowering.assigned
  grind

@[grind ←]
theorem assign (op : AssignOp) (target value : Expr) : Steady keep (cx.assign op target value) := by
  unfold Lowering.assign
  refine bind (expr _) fun place => bind (expr _) fun v => ?_
  grind

@[grind ←]
theorem assert (cond : Expr) : Steady keep (cx.assert cond) := by
  unfold Lowering.assert
  grind

omit [cx.IsSteady] in
@[grind ←]
theorem jump (kind : JumpKind) (label : Option Ident) : Steady keep (cx.jump kind label) := by
  unfold Lowering.jump
  refine bind (look _) fun loops => ?_
  grind

@[grind ←]
theorem stmt (s : Stmt) : Steady false (cx.stmt s) := by
  unfold Lowering.stmt
  refine locating ?_
  split
  all_goals grind

@[grind ←]
theorem stmts (ss : List Stmt) : Steady false (cx.stmts ss) := by
  induction ss with
  | nil => exact pure ()
  | cons s ss ih =>
    rw [Lowering.stmts]
    exact bind (stmt s) fun _ => ih

theorem blockStep (b : Block) : Steady false (cx.blockStep b) := by
  unfold Lowering.blockStep
  grind

@[grind ←]
theorem ident (name : String) (span : Span) : Steady keep (cx.ident name span) := by
  unfold Lowering.ident
  grind

@[grind ←]
theorem builtin (name : String) (span : Span) : Steady keep (cx.builtin name span) := by
  unfold Lowering.builtin
  grind

omit [cx.IsSteady] in
@[grind ←]
theorem param (name : String) : Steady keep (cx.param name) := by
  unfold Lowering.param
  grind

@[grind ←]
theorem exprs (es : List Expr) : Steady keep (cx.exprs es) := by
  induction es with
  | nil => exact pure []
  | cons e es ih =>
    rw [Lowering.exprs]
    grind

@[grind ←]
theorem callExpr (callee : Expr) (typeArgs : List TypeExpr) (args : List Expr) (span : Span) :
    Steady keep (cx.callExpr callee typeArgs args span) := by
  unfold Lowering.callExpr
  refine bind (exprs args) fun values => bind (types typeArgs) fun tys => ?_
  grind

theorem exprStep (e : Expr) : Steady keep (cx.exprStep e) := by
  unfold Lowering.exprStep
  refine locating ?_
  split
  all_goals grind

end Steady

theorem Steady.deep {α : Type} {keep : Bool} (span : Span) :
    Steady keep (Emit.locating span (MonadExcept.throw (.unsupported .depth)) : Emit α) :=
  locating (throw _)

instance Lowering.ofDepth_isSteady (target : Target) (n : Nat) :
    (Lowering.ofDepth target n).IsSteady := by
  induction n with
  | zero =>
    exact ⟨fun _ _ => .deep _, fun _ => .deep _, fun _ _ _ _ _ => .joinSides _ _ _ _ _,
      fun _ _ _ _ span => .deep span⟩
  | succ n ih =>
    refine ⟨fun _ e => .exprStep e, fun b => .blockStep b,
      fun _ _ _ _ _ => .joinSides _ _ _ _ _, ?_⟩
    intro _ f args typeArgs span
    exact .bind (.instantiate f typeArgs) fun inst => .answer f inst args typeArgs span

theorem Lowering.joinTy_same (what : String) {a b : Ty} (same : (a == b) = true) :
    joinTy what a b = .ok a := by
  simp [joinTy, Ty.accepts, same]

/-! ## Names -/

theorem Activation.local?_bind (f : Activation) (n : String) (v : Value) (name : String) :
    Activation.local? { f with level := { f.level with locals := (n, v) :: f.level.locals } } name =
      if name == n then some v else f.local? name := by
  simp only [Activation.local?, List.findSome?_cons, List.lookup_cons]
  cases name == n <;> rfl

def Emission.bind (s : Emission) (name : String) (v : Value) : Emission :=
  { s with frame := { s.frame with
    level := { s.frame.level with locals := (name, v) :: s.frame.level.locals } } }

theorem Emission.local?_bind (s : Emission) (x : String) (v : Value) (name : String) :
    (s.bind x v).frame.local? name = if name == x then some v else s.frame.local? name :=
  Activation.local?_bind s.frame x v name

end Ember
