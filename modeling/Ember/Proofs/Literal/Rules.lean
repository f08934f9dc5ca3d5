import Ember.Proofs.Literal.Broadcast
import Ember.Proofs.Literal.Prelude
import Ember.Proofs.Mend
import Ember.Proofs.Overloads
import Ember.Proofs.Safe.Rules

/-!
# Lowering of literal expressions, for every target alike

The runs for two targets go through the same steps: every value that comes up is a constant of a
type of the prelude, so no step comes to write code. Nothing is left behind but the names that a
block binds.
-/

set_option autoImplicit false

namespace Ember

open Emit

variable {α β : Type}

/-! ## Calls of the prelude's functions -/

section

variable {B : Known} {cx cx' : Lowering} {args : List Value} {typeArgs : List Ty}

theorem Lowering.argument_fixed (plain : B.Plain) {v : Value} (h : v.Fixed B) {q : ParamTy}
    (valid : q.Over B) : Paired (cx.argument v q) (cx'.argument v q) fun w => w.Fixed B := by
  cases q with
  | exact ty => exact h.convert_plain _ _ plain valid
  | any => exact .ok h
  | vector k =>
    unfold Lowering.argument
    dsimp only
    split
    · exact .ok h
    · exact h.convert_scalar _ _ k

theorem Lowering.arguments_fixed (plain : B.Plain) (h : ∀ v ∈ args, v.Fixed B) {ps : List Param}
    (valid : ∀ q ∈ ps.map Param.ty, q.Over B) :
    Paired (cx.arguments args ps) (cx'.arguments args ps) fun ws => ∀ w ∈ ws, w.Fixed B := by
  induction args generalizing ps with
  | nil => exact .ok (by simp)
  | cons v vs ih =>
    cases ps with
    | nil => exact .ok (by simp)
    | cons q qs =>
      rw [Lowering.arguments, Lowering.arguments]
      refine (argument_fixed plain (h v (by simp)) (valid q.ty (by simp))).bind fun w hw => ?_
      refine (ih (fun u member => h u (by simp [member])) fun r member =>
        valid r (List.mem_cons_of_mem _ member)).bind fun ws hws => .ok ?_
      simpa [hw] using hws

/-- What a function gives is no matter of the name by which it was looked for. -/
theorem resolve_ok {name display : String} {candidates : List Candidate} {tys : List Ty}
    {f : Function} (found : resolve display candidates tys = .ok f) :
    resolve name candidates tys = .ok f :=
  Answer.resolve_eq_ok_iff.mpr (Answer.resolve_eq_ok_iff.mp found)

namespace Echoes

theorem dispatch (plain : B.Plain) {candidates : List Candidate} {P : Value → Prop}
    (h : ∀ v ∈ args, v.Fixed B) {display : String} {span : Span}
    (meant : ∀ f, resolve display candidates (args.map Value.ty) = .ok f →
      (∀ q ∈ f.params.map Param.ty, q.Over B) ∧ ∀ ws : List Value, (∀ w ∈ ws, w.Fixed B) →
        Echoes B (f.behaviour.run cx ws typeArgs span) (f.behaviour.run cx' ws typeArgs span) P) :
    Echoes B (cx.dispatch display candidates args typeArgs span)
      (cx'.dispatch display candidates args typeArgs span) P := by
  unfold Lowering.dispatch
  refine bind (lift (P := fun f => resolve display candidates (args.map Value.ty) = .ok f)
    ⟨rfl, fun f => id⟩) fun f found => ?_
  obtain ⟨params, run⟩ := meant f found
  refine bind (lift (P := fun _ => True) ⟨rfl, fun _ _ => trivial⟩) fun _ _ => ?_
  exact bind (lift (Lowering.arguments_fixed plain h params)) fun ws hws => run ws hws

/-- What a function of the prelude does. -/
theorem run {p : Program} {K : Known} (valid : p.Over K) (base : p.OnPrelude) {name : String}
    {f : Function} (member : (name, f) ∈ p.env.root.functions)
    (h : ∀ v ∈ args, v.Fixed p.Basic) (span : Span) :
    Echoes p.Basic (f.behaviour.run cx args typeArgs span)
      (f.behaviour.run cx' args typeArgs span) fun w => w.Fixed p.Basic := by
  have plain := valid.basic_plain base
  unfold Behaviour.run
  split
  · rename_i s builds
    exact lift (Value.construct_fixed _ _ (Program.basic_of_construct member builds) h)
  · rename_i ty v builds
    have fixed := h v (by simp)
    rw [cache_fixed _ fixed, cache_fixed _ fixed, pure_bind, pure_bind]
    refine lift (Value.fromScalars_fixed _ _ plain (valid.basic_of_splat member builds) ?_)
    intro u repeated
    rw [List.eq_of_mem_replicate repeated]
    exact fixed
  · exact matrixProduct _ _ plain (h _ (by simp)) (h _ (by simp))
  · exact mapOp _ _ plain _ h
  · exact reduce _ _ plain _ h
  · exact count _
  · exact normalize _ _ plain (h _ (by simp))
  · exact cast _ _ (h _ (by simp)) _ _
  · rename_i g user
    exact absurd user (base.not_user member g)
  all_goals exact defect _

end Echoes
end

/-! ## Runs from a state -/

/-- Two actions that do the same from a state, and what holds after them. -/
def Unison (act act' : Emit α) (s : Emission) (Q : α → Emission → Prop) : Prop :=
  act s = act' s ∧ ∀ a t, act s = .ok a t → Q a t

namespace Unison

variable {act act' : Emit α} {s : Emission} {Q : α → Emission → Prop}

theorem pure {a : α} (h : Q a s) : Unison (pure a) (pure a) s Q := by
  refine ⟨rfl, ?_⟩
  rintro _ _ ⟨⟩
  exact h

theorem throw (f : Failure) : Unison (throw f) (throw f) s Q := by
  refine ⟨rfl, ?_⟩
  rintro _ _ ⟨⟩

theorem problem (p : Problem) : Unison (Emit.problem p) (Emit.problem p) s Q := throw _

theorem lift {x y : Except Failure α} {P : α → Prop} (h : Paired x y P) :
    Unison (liftM x) (liftM y) s fun a t => t = s ∧ P a := by
  obtain ⟨rfl, holds⟩ := h
  cases x with
  | ok a => exact pure ⟨rfl, holds a rfl⟩
  | error f => exact throw f

theorem look (f : Emission → α) :
    Unison (Emit.look f) (Emit.look f) s fun a t => a = f s ∧ t = s := by
  refine ⟨rfl, ?_⟩
  rintro _ _ ⟨⟩
  exact ⟨rfl, rfl⟩

theorem bind {next next' : α → Emit β} {R : β → Emission → Prop} (h : Unison act act' s Q)
    (then_ : ∀ a t, Q a t → Unison (next a) (next' a) t R) :
    Unison (act >>= next) (act' >>= next') s R := by
  obtain ⟨same, after⟩ := h
  change EStateM.bind act next s = EStateM.bind act' next' s ∧
    ∀ b t, EStateM.bind act next s = .ok b t → R b t
  unfold EStateM.bind
  rw [← same]
  cases run : act s with
  | error f t =>
    refine ⟨rfl, ?_⟩
    rintro _ _ ⟨⟩
  | ok a t => exact then_ a t (after a t run)

theorem mono {R : α → Emission → Prop} (h : Unison act act' s Q)
    (weaker : ∀ a t, Q a t → R a t) : Unison act act' s R :=
  ⟨h.1, fun a t run => weaker a t (h.2 a t run)⟩

theorem locating {span : Span} (h : Unison act act' s Q) :
    Unison (Emit.locating span act) (Emit.locating span act') s Q := by
  obtain ⟨same, after⟩ := h
  unfold Unison Emit.locating
  rw [← same]
  cases run : act s with
  | error f t =>
    refine ⟨rfl, ?_⟩
    rintro _ _ ⟨⟩
  | ok a t =>
    refine ⟨rfl, ?_⟩
    rintro _ _ ⟨⟩
    exact after _ _ run

/-- What safety says of the first run. -/
theorem and_safe {K : Known} {R : Known → α → Prop} (h : Unison act act' s Q) (safe : Safe K act R)
    (valid : s.Over K) :
    Unison act act' s fun a t => Q a t ∧ ∃ L, K.Sub L ∧ t.Over L ∧ R L a :=
  ⟨h.1, fun a t run => ⟨h.2 a t run, (safe s valid).ok run⟩⟩

end Unison

def Emission.withLocals (s : Emission) (locals : List (String × Value)) : Emission :=
  { s with frame := { s.frame with level := { s.frame.level with locals } } }

/-- A state and what becomes of it where names are bound. -/
def Emission.Adds (s t : Emission) : Prop := ∃ locals, t = s.withLocals locals

theorem Emission.Adds.trans {s t u : Emission} (first : s.Adds t) (second : t.Adds u) :
    s.Adds u := by
  obtain ⟨locals, rfl⟩ := first
  obtain ⟨locals', rfl⟩ := second
  exact ⟨locals', rfl⟩

namespace Unison

variable {act act' : Emit α} {s : Emission} {P : α → Prop}

/-- Blocks leave nothing behind if they write nothing. -/
theorem inBlock (h : Unison act act' s.entered fun a t => s.entered.Adds t ∧ P a) :
    Unison (Emit.inBlock act) (Emit.inBlock act') s fun p t => t = s ∧ P p.1 ∧ p.2 = [] := by
  obtain ⟨same, after⟩ := h
  unfold Unison
  rw [Emit.inBlock_run, Emit.inBlock_run, ← same]
  cases run : act s.entered with
  | error f t =>
    refine ⟨rfl, ?_⟩
    rintro _ _ ⟨⟩
  | ok a t =>
    obtain ⟨⟨locals, rfl⟩, holds⟩ := after a t run
    refine ⟨rfl, ?_⟩
    rintro _ _ ⟨⟩
    exact ⟨rfl, holds, rfl⟩

theorem nested (h : Unison act act' s.entered fun a t => s.entered.Adds t ∧ P a) :
    Unison (Emit.nested act) (Emit.nested act') s fun a t => t = s ∧ P a := by
  refine bind (inBlock h) ?_
  rintro ⟨a, ls⟩ t ⟨rfl, holds, rfl⟩
  have kept : (Emit.lines [] : Emit Unit) t = .ok () t := by
    simp [Emit.lines, Emit.modifyLevel, modify, modifyGet, MonadStateOf.modifyGet,
      EStateM.modifyGet]
  refine bind (Q := fun _ u => u = t) ⟨rfl, fun _ u run => ?_⟩ ?_
  · rw [kept] at run
    cases run
    rfl
  · rintro _ _ rfl
    exact pure ⟨rfl, holds⟩

end Unison

/-! ## States in which names are known -/

/-- A state in which names stand for constants of the prelude's types. -/
structure Emission.Binds (K : Known) (bound : List String) (s : Emission) : Prop where
  state : s.Over K
  base : s.program.OnPrelude
  bound : ∀ name ∈ bound, ∃ v, s.frame.local? name = some v ∧ v.Fixed s.program.Basic

theorem Value.Fixed.over {B K L : Known} {v : Value} (h : v.Fixed B) (sub : B.Sub K)
    (own : v.Over L) : v.Over K := ⟨h.ty.mono sub, own.const, own.code⟩

/-- No alternative of the program has a struct of the prelude. -/
theorem Program.Over.uid_not_mem {p : Program} {K : Known} (valid : p.Over K) (base : p.OnPrelude)
    {t b : Struct} {ts : List Struct} (alternative : (Ty.alt t ts).Over K) (basic : p.Basic b) :
    b.uid ∉ (t :: ts).map Struct.uid := by
  intro listed
  obtain ⟨first, nonempty, others⟩ := alternative
  have known := valid.basic_sub b basic
  obtain ⟨m, member, same⟩ := List.mem_map.mp listed
  rcases List.mem_cons.mp member with rfl | other
  · obtain rfl := valid.closed.unique m b first known same
    obtain ⟨u, more⟩ := List.exists_mem_of_ne_nil ts nonempty
    obtain ⟨hu, group, differ⟩ := others u more
    exact valid.basic_alone base basic hu differ group
  · obtain ⟨hm, group, differ⟩ := others m other
    obtain rfl := valid.closed.unique m b hm known same
    exact valid.basic_alone base basic first differ.symm group.symm

/-- Constants of the prelude's types are not converted to alternatives. -/
theorem Program.Over.narrow {p : Program} {K : Known} (valid : p.Over K) (base : p.OnPrelude)
    {v : Value} (h : v.Fixed p.Basic) {goal : Ty} (goalValid : goal.Over K) (t : Struct)
    (ts : List Struct) (alternative : goal = .alt t ts) (accepted : goal.accepts v.ty = true) :
    (v.ty == goal) = true := by
  by_contra differ
  subst alternative
  rcases Ty.accepts_cases accepted (by simpa using differ) with ⟨scalar, _⟩ | found
  · cases scalar
  · obtain ⟨u, us, same, b, bs, form, listed⟩ := found
    cases same
    have own := h.ty
    rcases form with struct | alt
    · rw [struct] at own
      exact valid.uid_not_mem base goalValid own listed
    · rw [alt] at own
      exact (valid.basic_plain base).not_alt own

namespace Emission.Binds

variable {K : Known} {bound : List String} {s : Emission} {v : Value}

theorem plain (ready : s.Binds K bound) : s.program.Basic.Plain :=
  ready.state.program.basic_plain ready.base

theorem sub (ready : s.Binds K bound) : s.program.Basic.Sub K := ready.state.program.basic_sub

theorem builtins (ready : s.Binds K bound) : s.program.builtins.Over s.program.Basic :=
  ready.state.program.basic_builtins

theorem entered (ready : s.Binds K bound) : s.entered.Binds K bound where
  state := ready.state.entered
  base := ready.base
  bound := ready.bound

theorem bind (ready : s.Binds K bound) (h : v.Fixed s.program.Basic) (own : v.Over K)
    (name : String) : (s.bind name v).Binds K (name :: bound) where
  state := by
    refine ⟨ready.state.program, ?_, ready.state.frame.outer, ready.state.frame.typeParams⟩
    intro q member
    rcases List.mem_cons.mp member with rfl | rest
    · exact own
    · exact ready.state.frame.level q rest
  base := ready.base
  bound other listed := by
    rw [Emission.local?_bind]
    split
    · exact ⟨v, rfl, h⟩
    · rename_i differ
      have rest : other ∈ bound := by
        rcases List.mem_cons.mp listed with rfl | rest
        · simp at differ
        · exact rest
      exact ready.bound other rest

theorem mono (ready : s.Binds K bound) {names : List String} (fewer : ∀ n ∈ names, n ∈ bound) :
    s.Binds K names := ⟨ready.state, ready.base, fun n member => ready.bound n (fewer n member)⟩

end Emission.Binds

/-! ## Rules -/

namespace Unison

variable {K : Known} {bound : List String} {s : Emission} {cx cx' : Lowering} {v : Value}
  {args : List Value}

/-- A constant fits its type wherever safety says so. -/
theorem fitting {act act' : Emit Value} (ready : s.Binds K bound)
    (h : Unison act act' s fun v t => t = s ∧ v.Fixed s.program.Basic)
    (safe : Safe K act fun L v => v.Over L) :
    Unison act act' s fun v t => t = s ∧ v.Fixed s.program.Basic ∧ v.Over K := by
  refine (h.and_safe safe ready.state).mono ?_
  rintro w t ⟨⟨rfl, fixed⟩, L, _, _, own⟩
  exact ⟨rfl, fixed, fixed.over ready.sub own⟩

theorem dispatch (ready : s.Binds K bound) {candidates : List Candidate} {display name : String}
    (meant : ∀ f, resolve display candidates (args.map Value.ty) = .ok f →
      (name, f) ∈ s.program.env.root.functions)
    (h : ∀ v ∈ args, v.Fixed s.program.Basic) (typeArgs : List Ty) (span : Span) :
    Unison (cx.dispatch display candidates args typeArgs span)
      (cx'.dispatch display candidates args typeArgs span) s
      fun v t => t = s ∧ v.Fixed s.program.Basic := by
  refine Echoes.dispatch ready.plain h (fun f found => ?_) s ready.builtins
  have member := meant f found
  exact ⟨ready.state.program.basic_params member, fun ws fixed =>
    Echoes.run ready.state.program ready.base member fixed span⟩

theorem types_over {B : Known} (h : ∀ v ∈ args, v.Fixed B) : ∀ t ∈ args.map Value.ty, t.Over B := by
  simpa using fun v member => (h v member).ty

theorem operator (ready : s.Binds K bound) {key symbol : String}
    (means : s.program.Means key args.length) (h : ∀ v ∈ args, v.Fixed s.program.Basic)
    (span : Span) :
    Unison (cx.operator key symbol args span) (cx'.operator key symbol args span) s
      fun v t => t = s ∧ v.Fixed s.program.Basic :=
  dispatch ready (fun f found => means _ (by simp) (types_over h) f (resolve_ok found)) h [] span

theorem call (ready : s.Binds K bound) {name : String} (means : s.program.Means name args.length)
    (h : ∀ v ∈ args, v.Fixed s.program.Basic) (typeArgs : List Ty) (span : Span) :
    Unison (cx.call name args typeArgs span) (cx'.call name args typeArgs span) s
      fun v t => t = s ∧ v.Fixed s.program.Basic :=
  dispatch ready (fun f found => means _ (by simp) (types_over h) f found) h typeArgs span

theorem callBuiltin (ready : s.Binds K bound) (name : String)
    (h : ∀ v ∈ args, v.Fixed s.program.Basic) (typeArgs : List Ty) (span : Span) :
    Unison (cx.callBuiltin name args typeArgs span) (cx'.callBuiltin name args typeArgs span) s
      fun v t => t = s ∧ v.Fixed s.program.Basic := by
  have meant (f : Function) (found : resolve ("@" ++ name) (s.program.env.builtins name)
      (args.map Value.ty) = .ok f) : (name, f) ∈ s.program.env.root.functions := by
    have gives := resolve_gives K ("@" ++ name) (s.program.env.builtins name) (args.map Value.ty)
    rw [found] at gives
    obtain ⟨⟨c, listed, rfl⟩, _⟩ := gives
    obtain ⟨q, kept, rfl⟩ := List.mem_map.mp listed
    obtain ⟨member, named⟩ := List.mem_filter.mp kept
    rw [← eq_of_beq named]
    exact member
  exact dispatch ready meant h typeArgs span

/-! ### Patterns -/

/-- A literal in a pattern is compared, and the answer is known. -/
theorem equality (ready : s.Binds K bound) (means : s.program.Means "_eq" 2)
    (h : v.Fixed s.program.Basic) (l : Lit) (span : Span) :
    Unison (cx.operator "_eq" "==" [v, Lowering.literal l] span)
      (cx'.operator "_eq" "==" [v, Lowering.literal l] span) s
      fun w t => t = s ∧ ∃ x, w = .bool x := by
  have fixed : ∀ u ∈ [v, Lowering.literal l], u.Fixed s.program.Basic := by
    refine fixed_pair h ?_
    cases l <;> exact Value.fixed_const _ trivial
  refine Echoes.dispatch ready.plain fixed (fun f found => ?_) s ready.builtins
  have member := means _ (by simp) (types_over fixed) f (resolve_ok found)
  refine ⟨ready.state.program.basic_params member, fun ws hws => ?_⟩
  rw [ready.base.eq_of_reduces member]
  exact Echoes.reduce_eq _ _ ready.plain hws

theorem both (x y : Bool) (span : Span) :
    Unison (cx.both (.bool x) (.bool y) span) (cx'.both (.bool x) (.bool y) span) s
      fun w t => t = s ∧ ∃ z, w = .bool z := by
  cases x <;> cases y <;> exact pure ⟨rfl, _, rfl⟩

theorem elementAt (ready : s.Binds K bound) (h : v.Fixed s.program.Basic) (own : v.Over K)
    (i : Nat) : Unison (cx.elementAt v i) (cx'.elementAt v i) s
      fun w t => t = s ∧ w.Fixed s.program.Basic ∧ w.Over K := by
  have place : (Value.int (Int32.ofNat i)).Fixed s.program.Basic := Value.fixed_const _ trivial
  exact fitting ready (Echoes.index _ _ ready.state.program.closed h own place (Value.Of.int _).1 s
    ready.builtins) (Safe.elementAt own i)

theorem patternField (ready : s.Binds K bound) (st : Struct) (name : Ident) :
    Unison (Lowering.patternField st name) (Lowering.patternField st name) s
      fun i t => t = s ∧ ∃ f, st.fields[i]? = some f := by
  have kept : Unison (Lowering.patternField st name) (Lowering.patternField st name) s
      fun _ t => t = s := by
    unfold Lowering.patternField
    split
    · exact pure rfl
    · exact locating (problem _)
  refine (kept.and_safe (Safe.patternField st name) ready.state).mono ?_
  rintro i t ⟨same, _, _, _, found⟩
  exact ⟨same, found⟩

theorem part (ready : s.Binds K bound) (h : v.Fixed s.program.Basic) (own : v.Over K)
    {st : Struct} (ty : v.ty = .struct st) {i : Nat} {f : Field} (found : st.fields[i]? = some f) :
    Unison (liftM (v.field cx.target i)) (liftM (v.field cx'.target i)) s
      fun w t => t = s ∧ w.Fixed s.program.Basic ∧ w.Over K :=
  fitting ready (lift (h.field _ _ ready.plain i))
    ((Safe.field ⟨own, ty⟩ rfl found cx.target).mono fun _ _ _ part => part.1)

theorem patternStruct (ready : s.Binds K bound) (own : v.Over K) (name : Ident) :
    Unison (Lowering.patternStruct name v.ty) (Lowering.patternStruct name v.ty) s
      fun st t => t = s ∧ v.ty = .struct st := by
  have kept : Unison (Lowering.patternStruct name v.ty) (Lowering.patternStruct name v.ty) s
      fun _ t => t = s := by
    refine bind (look _) ?_
    rintro _ _ ⟨rfl, rfl⟩
    refine locating ?_
    split
    · split
      · exact pure rfl
      · exact problem _
    · exact problem _
    · exact problem _
  refine (kept.and_safe (Safe.patternStruct own.ty name) ready.state).mono ?_
  rintro st t ⟨same, _, _, _, ty⟩
  exact ⟨same, ty⟩

theorem checkFields (st : Struct) (names : List String) :
    Unison (Lowering.checkFields st names) (Lowering.checkFields st names) s
      fun _ t => t = s := by
  unfold Lowering.checkFields
  split
  · exact problem _
  · split
    · exact problem _
    · exact pure rfl

theorem checkArrayPattern (ty : Ty) (count : Nat) (rest : Bool) :
    Unison (Lowering.checkArrayPattern ty count rest) (Lowering.checkArrayPattern ty count rest) s
      fun _ t => t = s := by
  unfold Lowering.checkArrayPattern
  split
  · exact problem _
  · split
    · exact problem _
    · exact pure rfl

mutual

theorem testPattern {v : Value} {s : Emission} {bound : List String} (ready : s.Binds K bound)
    {p : Pat} (literal : p.Literal s.program.Means) (h : v.Fixed s.program.Basic) (own : v.Over K) :
    Unison (cx.testPattern p v) (cx'.testPattern p v) s fun w t => t = s ∧ ∃ x, w = .bool x := by
  match p with
  | ⟨.ignore, _⟩ =>
    rw [Lowering.testPattern, Lowering.testPattern]
    exact pure ⟨rfl, _, rfl⟩
  | ⟨.bind _ _, _⟩ =>
    rw [Lowering.testPattern, Lowering.testPattern]
    exact pure ⟨rfl, _, rfl⟩
  | ⟨.lit l, span⟩ =>
    cases literal with
    | lit means =>
      rw [Lowering.testPattern, Lowering.testPattern]
      exact equality ready means h l span
  | ⟨.struct name fields _, span⟩ =>
    cases literal with
    | struct each =>
      rw [Lowering.testPattern, Lowering.testPattern]
      refine bind (patternStruct ready own name) ?_
      rintro st _ ⟨rfl, ty⟩
      exact testFields ready each h own ty span true
  | ⟨.array items rest, span⟩ =>
    cases literal with
    | array each =>
      rw [Lowering.testPattern, Lowering.testPattern]
      refine bind (checkArrayPattern _ _ _) ?_
      rintro _ _ rfl
      exact testItems ready each h own span 0 true

theorem testFields {v : Value} {st : Struct} {s : Emission} {bound : List String}
    (ready : s.Binds K bound) {fs : List FieldPat}
    (literal : ∀ f ∈ fs, f.pat.Literal s.program.Means) (h : v.Fixed s.program.Basic)
    (own : v.Over K) (ty : v.ty = .struct st) (span : Span) (x : Bool) :
    Unison (cx.testFields span st (.bool x) fs v) (cx'.testFields span st (.bool x) fs v) s
      fun w t => t = s ∧ ∃ x, w = .bool x := by
  match fs with
  | [] =>
    rw [Lowering.testFields, Lowering.testFields]
    exact pure ⟨rfl, _, rfl⟩
  | ⟨name, pat⟩ :: fs =>
    rw [Lowering.testFields, Lowering.testFields]
    refine bind (patternField ready st name) ?_
    rintro i _ ⟨rfl, f, found⟩
    refine bind (part ready h own ty found) ?_
    rintro component _ ⟨rfl, hp, ownPart⟩
    refine bind (testPattern ready (literal ⟨name, pat⟩ (by simp)) hp ownPart) ?_
    rintro _ _ ⟨rfl, y, rfl⟩
    refine bind (both x y span) ?_
    rintro _ _ ⟨rfl, z, rfl⟩
    exact testFields ready (fun f member => literal f (by simp [member])) h own ty span z

theorem testItems {v : Value} {s : Emission} {bound : List String} (ready : s.Binds K bound)
    {ps : List Pat} (literal : ∀ p ∈ ps, p.Literal s.program.Means) (h : v.Fixed s.program.Basic)
    (own : v.Over K) (span : Span) (i : Nat) (x : Bool) :
    Unison (cx.testItems span i (.bool x) ps v) (cx'.testItems span i (.bool x) ps v) s
      fun w t => t = s ∧ ∃ x, w = .bool x := by
  match ps with
  | [] =>
    rw [Lowering.testItems, Lowering.testItems]
    exact pure ⟨rfl, _, rfl⟩
  | p :: ps =>
    rw [Lowering.testItems, Lowering.testItems]
    refine bind (elementAt ready h own i) ?_
    rintro item _ ⟨rfl, hp, ownPart⟩
    refine bind (testPattern ready (literal p (by simp)) hp ownPart) ?_
    rintro _ _ ⟨rfl, y, rfl⟩
    refine bind (both x y span) ?_
    rintro _ _ ⟨rfl, z, rfl⟩
    exact testItems ready (fun p member => literal p (by simp [member])) h own span (i + 1) z

end

/-- A constant is bound as it is. -/
theorem bindLocal (ready : s.Binds K bound) (h : v.Fixed s.program.Basic) (own : v.Over K)
    (name : String) :
    Unison (cx.bindLocal name false v) (cx'.bindLocal name false v) s
      fun _ t => s.Adds t ∧ t.Binds K (name :: bound) := by
  have bindName {w : Value} (hw : w.Fixed s.program.Basic) (ownW : w.Over K) :
      Unison (Emit.bindName name w) (Emit.bindName name w) s
        fun _ t => s.Adds t ∧ t.Binds K (name :: bound) := by
    refine ⟨rfl, ?_⟩
    rintro _ _ ⟨⟩
    exact ⟨⟨_, rfl⟩, ready.bind hw ownW name⟩
  unfold Lowering.bindLocal
  split
  · rename_i void
    exact bindName (Value.fixed_const _ h.ty) (ready.state.program.closed.zero_over own.ty void)
  · simp only [h.isConst, Bool.not_false, Bool.true_or, Bool.and_self, if_true]
    exact bindName h own

mutual

theorem bindPattern {v : Value} {s : Emission} {bound : List String} (ready : s.Binds K bound)
    {p : Pat} (literal : p.Literal s.program.Means) (h : v.Fixed s.program.Basic)
    (own : v.Over K) :
    Unison (cx.bindPattern p v) (cx'.bindPattern p v) s
      fun _ t => s.Adds t ∧ t.Binds K (p.names ++ bound) := by
  match p with
  | ⟨.ignore, _⟩ =>
    rw [Lowering.bindPattern, Lowering.bindPattern, Pat.names]
    obtain ⟨c, payload⟩ := h.const
    unfold Emit.discard
    rw [payload]
    exact pure ⟨⟨_, rfl⟩, ready⟩
  | ⟨.lit _, _⟩ =>
    rw [Lowering.bindPattern, Lowering.bindPattern, Pat.names]
    exact pure ⟨⟨_, rfl⟩, ready⟩
  | ⟨.bind name mutable, _⟩ =>
    cases literal with
    | bind =>
      rw [Lowering.bindPattern, Lowering.bindPattern, Pat.names]
      exact bindLocal ready h own name
  | ⟨.struct name fields rest, span⟩ =>
    cases literal with
    | struct each =>
      rw [Lowering.bindPattern, Lowering.bindPattern, Pat.names]
      refine bind (patternStruct ready own name) ?_
      rintro st _ ⟨rfl, ty⟩
      rw [cache_fixed _ h, cache_fixed _ h]
      split
      · refine bind (locating (checkFields st _)) ?_
        rintro _ _ rfl
        exact bindFields ready each h own ty
      · exact bindFields ready each h own ty
  | ⟨.array items rest, _⟩ =>
    cases literal with
    | array each =>
      rw [Lowering.bindPattern, Lowering.bindPattern, Pat.names]
      refine bind (checkArrayPattern _ _ _) ?_
      rintro _ _ rfl
      rw [cache_fixed _ h, cache_fixed _ h, pure_bind, pure_bind]
      exact bindItems ready each h own 0

theorem bindFields {v : Value} {st : Struct} {s : Emission} {bound : List String}
    (ready : s.Binds K bound) {fs : List FieldPat}
    (literal : ∀ f ∈ fs, f.pat.Literal s.program.Means) (h : v.Fixed s.program.Basic)
    (own : v.Over K) (ty : v.ty = .struct st) :
    Unison (cx.bindFields st fs v) (cx'.bindFields st fs v) s
      fun _ t => s.Adds t ∧ t.Binds K (FieldPat.names fs ++ bound) := by
  match fs with
  | [] =>
    rw [Lowering.bindFields, Lowering.bindFields, FieldPat.names]
    exact pure ⟨⟨_, rfl⟩, ready⟩
  | ⟨name, pat⟩ :: fs =>
    rw [Lowering.bindFields, Lowering.bindFields, FieldPat.names]
    refine bind (patternField ready st name) ?_
    rintro i _ ⟨rfl, f, found⟩
    refine bind (part ready h own ty found) ?_
    rintro component _ ⟨rfl, hp, ownPart⟩
    refine bind (bindPattern ready (literal ⟨name, pat⟩ (by simp)) hp ownPart) ?_
    rintro _ _ ⟨⟨locals, rfl⟩, ready'⟩
    refine (bindFields ready' (fun f member => literal f (by simp [member])) h own ty).mono ?_
    rintro _ t ⟨added, ready''⟩
    refine ⟨Emission.Adds.trans ⟨locals, rfl⟩ added, ready''.mono fun n member => ?_⟩
    simp only [List.mem_append] at member ⊢
    tauto

theorem bindItems {v : Value} {s : Emission} {bound : List String} (ready : s.Binds K bound)
    {ps : List Pat} (literal : ∀ p ∈ ps, p.Literal s.program.Means)
    (h : v.Fixed s.program.Basic) (own : v.Over K) (i : Nat) :
    Unison (cx.bindItems i ps v) (cx'.bindItems i ps v) s
      fun _ t => s.Adds t ∧ t.Binds K (Pat.allNames ps ++ bound) := by
  match ps with
  | [] =>
    rw [Lowering.bindItems, Lowering.bindItems, Pat.allNames]
    exact pure ⟨⟨_, rfl⟩, ready⟩
  | p :: ps =>
    rw [Lowering.bindItems, Lowering.bindItems, Pat.allNames]
    refine bind (elementAt ready h own i) ?_
    rintro item _ ⟨rfl, hp, ownPart⟩
    refine bind (bindPattern ready (literal p (by simp)) hp ownPart) ?_
    rintro _ _ ⟨⟨locals, rfl⟩, ready'⟩
    refine (bindItems ready' (fun p member => literal p (by simp [member])) h own (i + 1)).mono ?_
    rintro _ t ⟨added, ready''⟩
    refine ⟨Emission.Adds.trans ⟨locals, rfl⟩ added, ready''.mono fun n member => ?_⟩
    simp only [List.mem_append] at member ⊢
    tauto

end

end Unison

end Ember
