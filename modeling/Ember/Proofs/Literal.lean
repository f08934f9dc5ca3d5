import Ember.Emit.Broadcast
import Ember.Emit.Project
import Ember.Proofs.Safe.Parts
import Ember.Proofs.Safe.Start

/-!
# Operations on constants

A target decides how code is written. Constants are computed without code, so an operation does the
same for every target as long as all that it works on is constant, and what comes out is constant
again.
-/

set_option autoImplicit false

namespace Ember

variable {α β : Type}

/-! ## Constants over plain structs -/

/-- Structs whose fields are of such structs, and none of which can stand for another. -/
structure Known.Plain (B : Known) : Prop where
  fields : ∀ s, B s → ∀ f ∈ s.fields, f.ty.Over B
  lone : B.Lone

theorem Known.Plain.not_alt {B : Known} (plain : B.Plain) {t : Struct} {ts : List Struct} :
    ¬ (Ty.alt t ts).Over B := by
  rintro ⟨first, nonempty, others⟩
  obtain ⟨s, member⟩ := List.exists_mem_of_ne_nil ts nonempty
  obtain ⟨known, group, differ⟩ := others s member
  exact plain.lone s t known first differ group

structure Value.Fixed (B : Known) (v : Value) : Prop where
  const : ∃ c, v.payload = .const c
  ty : v.ty.Over B

namespace Value

variable {B : Known} {v : Value} {vs : List Value}

theorem fixed_const {t : Ty} (c : Constant) (valid : t.Over B) : (Value.const c t).Fixed B :=
  ⟨⟨c, rfl⟩, valid⟩

namespace Fixed

theorem const? (h : v.Fixed B) : ∃ c, v.const? = some c := by
  obtain ⟨c, payload⟩ := h.const
  exact ⟨c, const?_eq_some.mpr payload⟩

theorem isConst (h : v.Fixed B) : v.isConst = true := by
  obtain ⟨c, known⟩ := h.const?
  simp [Value.isConst, known]

theorem isSimple (h : v.Fixed B) (target : Target) : v.isSimple target = true := by
  obtain ⟨c, payload⟩ := h.const
  simp [Value.isSimple, payload]

theorem all_isConst (h : ∀ v ∈ vs, v.Fixed B) : vs.all Value.isConst = true :=
  List.all_eq_true.mpr fun v member => (h v member).isConst

theorem consts (h : ∀ v ∈ vs, v.Fixed B) : ∃ cs, consts? vs = some cs := by
  cases found : consts? vs with
  | some cs => exact ⟨cs, rfl⟩
  | none =>
    obtain ⟨v, member, c, code⟩ := consts?_eq_none found
    obtain ⟨d, const⟩ := (h v member).const
    rw [code] at const
    cases const

/-- An index that is constant is known. -/
theorem knownIndex? {K : Known} (h : v.Fixed B) (own : v.Of K .i32) :
    ∃ n, Emit.knownIndex? v = some n := by
  obtain ⟨c, payload⟩ := h.const
  have holds := own.1.const c payload
  rw [own.2, Ty.i32, Ty.Holds] at holds
  obtain ⟨x, rfl, kind⟩ := holds
  cases x with
  | int n => exact ⟨n, by simp [Emit.knownIndex?, Value.const?, payload]⟩
  | float x => cases kind
  | bool b => cases kind

/-- A condition that is constant is known. -/
theorem truth? {K : Known} (h : v.Fixed B) (own : v.Of K .bool) : ∃ b, v.truth? = some b := by
  obtain ⟨c, payload⟩ := h.const
  have holds := own.1.const c payload
  rw [own.2, Ty.bool, Ty.Holds] at holds
  obtain ⟨x, rfl, kind⟩ := holds
  cases x with
  | bool b => exact ⟨b, by simp [Value.truth?, Value.const?, payload]⟩
  | int n => cases kind
  | float x => cases kind

end Fixed
end Value

/-! ## Computations that come out the same -/

/-- Two computations that are one, and what holds of its result. -/
def Paired (x y : Except Failure α) (P : α → Prop) : Prop := x = y ∧ ∀ a, x = .ok a → P a

namespace Paired

variable {x y : Except Failure α} {P : α → Prop}

theorem ok {a : α} (h : P a) : Paired (.ok a) (.ok a) P := by
  refine ⟨rfl, ?_⟩
  rintro _ ⟨⟩
  exact h

theorem error (f : Failure) : Paired (.error f) (.error f) P := by
  refine ⟨rfl, ?_⟩
  rintro _ ⟨⟩

theorem bind {next next' : α → Except Failure β} {Q : β → Prop} (h : Paired x y P)
    (then_ : ∀ a, P a → Paired (next a) (next' a) Q) : Paired (x >>= next) (y >>= next') Q := by
  obtain ⟨rfl, holds⟩ := h
  cases x with
  | error f => exact error f
  | ok a => exact then_ a (holds a rfl)

theorem mono {Q : α → Prop} (h : Paired x y P) (weaker : ∀ a, P a → Q a) : Paired x y Q :=
  ⟨h.1, fun a run => weaker a (h.2 a run)⟩

theorem map {Q : β → Prop} {f : α → β} (h : Paired x y P) (weaker : ∀ a, P a → Q (f a)) :
    Paired (x.map f) (y.map f) Q := by
  obtain ⟨rfl, holds⟩ := h
  cases x with
  | error f => exact error f
  | ok a => exact ok (weaker a (holds a rfl))

/-- Each element in turn. -/
theorem mapM {f g : α → Except Failure β} {Q : β → Prop} {xs : List α}
    (each : ∀ a ∈ xs, Paired (f a) (g a) Q) :
    Paired (xs.mapM f) (xs.mapM g) fun ys => ∀ b ∈ ys, Q b := by
  induction xs with
  | nil => exact ok (by simp)
  | cons a as ih =>
    rw [List.mapM_cons, List.mapM_cons]
    refine bind (each a (by simp)) fun b hb => ?_
    refine bind (ih fun c hc => each c (by simp [hc])) fun bs hbs => ok ?_
    simpa [hb] using hbs

end Paired

/-- Two actions that do the same from every state with builtins over a set, and keep the state. -/
def Echoes (B : Known) (act act' : Emit α) (P : α → Prop) : Prop :=
  ∀ s : Emission, s.program.builtins.Over B →
    act s = act' s ∧ ∀ a t, act s = .ok a t → t = s ∧ P a

namespace Echoes

variable {B : Known} {act act' : Emit α} {P : α → Prop}

theorem pure {a : α} (h : P a) : Echoes B (pure a) (pure a) P := by
  refine fun s _ => ⟨rfl, ?_⟩
  rintro _ _ ⟨⟩
  exact ⟨rfl, h⟩

theorem throw (f : Failure) : Echoes B (throw f) (throw f) P := by
  refine fun s _ => ⟨rfl, ?_⟩
  rintro _ _ ⟨⟩

theorem problem (p : Problem) : Echoes B (Emit.problem p) (Emit.problem p) P := throw _

theorem defect (d : Defect) : Echoes B (Emit.defect d) (Emit.defect d) P := throw _

theorem lift {x y : Except Failure α} (h : Paired x y P) : Echoes B (liftM x) (liftM y) P := by
  obtain ⟨rfl, holds⟩ := h
  cases x with
  | ok a => exact pure (holds a rfl)
  | error f => exact throw f

theorem bind {next next' : α → Emit β} {Q : β → Prop} (h : Echoes B act act' P)
    (then_ : ∀ a, P a → Echoes B (next a) (next' a) Q) :
    Echoes B (act >>= next) (act' >>= next') Q := by
  intro s builtins
  obtain ⟨same, after⟩ := h s builtins
  change EStateM.bind act next s = EStateM.bind act' next' s ∧
    ∀ b t, EStateM.bind act next s = .ok b t → t = s ∧ Q b
  unfold EStateM.bind
  rw [← same]
  cases run : act s with
  | error f t =>
    refine ⟨rfl, ?_⟩
    rintro _ _ ⟨⟩
  | ok a t =>
    obtain ⟨rfl, holds⟩ := after a t run
    exact then_ a holds t builtins

theorem locating {span : Span} (h : Echoes B act act' P) :
    Echoes B (Emit.locating span act) (Emit.locating span act') P := by
  intro s builtins
  obtain ⟨same, after⟩ := h s builtins
  unfold Emit.locating
  rw [← same]
  cases run : act s with
  | error f t =>
    refine ⟨rfl, ?_⟩
    rintro _ _ ⟨⟩
  | ok a t =>
    refine ⟨rfl, ?_⟩
    rintro _ _ ⟨⟩
    exact after _ _ run

/-- Each element in turn. -/
theorem mapM {f g : α → Emit β} {Q : β → Prop} {xs : List α}
    (each : ∀ a ∈ xs, Echoes B (f a) (g a) Q) :
    Echoes B (xs.mapM f) (xs.mapM g) fun ys => ∀ b ∈ ys, Q b := by
  induction xs with
  | nil => exact pure (by simp)
  | cons a as ih =>
    rw [List.mapM_cons, List.mapM_cons]
    refine bind (each a (by simp)) fun b hb => ?_
    refine bind (ih fun c hc => each c (by simp [hc])) fun bs hbs => pure ?_
    simpa [hb] using hbs

theorem vectorTy (k : ScalarKind) (w : Nat) :
    Echoes B (Emit.vectorTy k w) (Emit.vectorTy k w) fun t => t.Over B := by
  intro s builtins
  refine ⟨rfl, fun t u run => ?_⟩
  change (liftM (s.program.builtins.vector k w) : Emit Ty) s = .ok t u at run
  unfold Builtins.vector at run
  split at run
  · cases run
    exact ⟨rfl, trivial⟩
  · split at run
    · rename_i ty found
      cases run
      exact ⟨rfl, (builtins.vectors _ (mem_of_lookup found)).1⟩
    · cases run

end Echoes

/-! ## Parts of constants -/

namespace Value

variable {B : Known} {v : Value} {vs : List Value} (target target' : Target)

/-- Conversion to what is not an alternative. -/
theorem Fixed.convert {goal : Ty} (h : v.Fixed B)
    (narrow : ∀ t ts, goal = .alt t ts → goal.accepts v.ty = true → (v.ty == goal) = true) :
    Paired (v.convert target goal) (v.convert target' goal) fun w => w.Fixed B := by
  unfold Value.convert
  split
  · exact .ok h
  · rename_i differ
    split
    · exact .error _
    · rename_i refused
      obtain ⟨c, payload⟩ := h.const
      rw [payload]
      split
      · exact .ok (fixed_const _ trivial)
      · rename_i code
        cases code
      · rename_i t ts
        exact absurd (narrow _ _ rfl (by simpa using refused)) differ
      · exact .error _

theorem Fixed.convert_plain {goal : Ty} (h : v.Fixed B) (plain : B.Plain) (valid : goal.Over B) :
    Paired (v.convert target goal) (v.convert target' goal) fun w => w.Fixed B := by
  refine h.convert target target' fun t ts alternative _ => ?_
  rw [alternative] at valid
  exact absurd valid plain.not_alt

theorem Fixed.convert_scalar (h : v.Fixed B) (k : ScalarKind) :
    Paired (v.convert target (.scalar k)) (v.convert target' (.scalar k)) fun w => w.Fixed B := by
  refine h.convert target target' ?_
  rintro _ _ ⟨⟩

theorem Fixed.field (h : v.Fixed B) (plain : B.Plain) (i : Nat) :
    Paired (v.field target i) (v.field target' i) fun w => w.Fixed B := by
  obtain ⟨c, payload⟩ := h.const
  unfold Value.field
  split
  · exact .error _
  · rename_i s struct
    split
    · exact .error _
    · rename_i f found
      have valid : f.ty.Over B :=
        plain.fields s (h.ty.known_of_struct? struct) f (List.mem_of_getElem? found)
      rw [payload]
      cases c with
      | scalar x => exact .error _
      | aggregate items =>
        simp only [Code.items, bind, Except.bind]
        split
        · exact .ok (fixed_const _ valid)
        · exact .error _

theorem construct_fixed {s : Struct} (known : B s) (h : ∀ v ∈ vs, v.Fixed B) :
    Paired (construct target s vs) (construct target' s vs) fun w => w.Fixed B := by
  obtain ⟨cs, consts⟩ := Fixed.consts h
  unfold construct
  rw [consts]
  exact .ok (fixed_const _ known)

theorem fieldsOfScalars_fixed {fs : List Field} (h : ∀ v ∈ vs, v.Fixed B)
    (valid : ∀ f ∈ fs, f.ty.Over B)
    (each : ∀ f ∈ fs, ∀ vs : List Value, (∀ v ∈ vs, v.Fixed B) →
      Paired (ofScalars target f.ty vs) (ofScalars target' f.ty vs)
        fun p => p.1.Fixed B ∧ ∀ v ∈ p.2, v.Fixed B) :
    Paired (fieldsOfScalars target fs vs) (fieldsOfScalars target' fs vs)
      fun p => (∀ v ∈ p.1, v.Fixed B) ∧ ∀ v ∈ p.2, v.Fixed B := by
  induction fs generalizing vs with
  | nil =>
    rw [fieldsOfScalars, fieldsOfScalars]
    exact .ok ⟨by simp, h⟩
  | cons f fs ih =>
    obtain ⟨name, ty⟩ := f
    have rest (us : List Value) (fixed : ∀ v ∈ us, v.Fixed B) :=
      ih fixed (fun f member => valid f (by simp [member])) fun f member =>
        each f (by simp [member])
    rw [fieldsOfScalars, fieldsOfScalars]
    split
    · refine (rest vs h).bind fun p hp => .ok ⟨?_, hp.2⟩
      simpa [fixed_const ty.zero (valid ⟨name, ty⟩ (by simp))] using hp.1
    · refine (each ⟨name, ty⟩ (by simp) vs h).bind fun p hp => ?_
      refine (rest p.2 hp.2).bind fun q hq => .ok ⟨?_, hq.2⟩
      simpa [hp.1] using hq.1

theorem ofScalars_fixed (plain : B.Plain) {t : Ty} (valid : t.Over B) (h : ∀ v ∈ vs, v.Fixed B) :
    Paired (ofScalars target t vs) (ofScalars target' t vs)
      fun p => p.1.Fixed B ∧ ∀ v ∈ p.2, v.Fixed B := by
  induction t using Ty.induct generalizing vs with
  | scalar k =>
    cases vs with
    | nil =>
      rw [ofScalars, ofScalars]
      exact .error _
    | cons v vs =>
      rw [ofScalars, ofScalars]
      exact .ok ⟨h v (by simp), fun u member => h u (by simp [member])⟩
  | struct s ih =>
    have fields := plain.fields s valid
    have inner := fieldsOfScalars_fixed target target' h fields fun f member us fixed =>
      ih f member (fields f member) fixed
    have made (ws : List Value) (fixed : ∀ v ∈ ws, v.Fixed B) :=
      construct_fixed target target' (s := s) valid fixed
    rw [ofScalars, ofScalars]
    obtain ⟨uid, group, name, fields, matrix, js, glsl⟩ := s
    rw [structOfScalars, structOfScalars]
    refine inner.bind fun p hp => ?_
    exact (made p.1 hp.1).bind fun w hw => .ok ⟨hw, hp.2⟩
  | array of len _ =>
    rw [ofScalars, ofScalars]
    exact .error _
  | alt first others _ _ =>
    rw [ofScalars, ofScalars]
    exact .error _

theorem fromScalars_fixed (plain : B.Plain) {t : Ty} (valid : t.Over B) (h : ∀ v ∈ vs, v.Fixed B) :
    Paired (fromScalars target t vs) (fromScalars target' t vs) fun w => w.Fixed B :=
  (ofScalars_fixed target target' plain valid h).map fun _ => And.left

end Value

namespace Emit

variable {B : Known} {v : Value} (target target' : Target)

theorem cache_fixed (h : v.Fixed B) : cache target v = pure v := by
  unfold cache
  rw [h.isSimple target, Bool.true_or, if_pos rfl]

end Emit

namespace Echoes

open Emit

variable {B : Known} {v : Value} {args : List Value} (target target' : Target)

theorem fieldScalars (plain : B.Plain) (h : v.Fixed B) {fs : List Field} (i : Nat)
    (each : ∀ f ∈ fs, ∀ v : Value, v.Fixed B →
      Echoes B (scalarsAt target f.ty v) (scalarsAt target' f.ty v) fun vs => ∀ u ∈ vs, u.Fixed B) :
    Echoes B (Emit.fieldScalars target i fs v) (Emit.fieldScalars target' i fs v)
      fun vs => ∀ u ∈ vs, u.Fixed B := by
  induction fs generalizing i with
  | nil =>
    rw [Emit.fieldScalars, Emit.fieldScalars]
    exact pure (by simp)
  | cons f fs ih =>
    obtain ⟨name, ty⟩ := f
    have rest := ih (i + 1) fun f member => each f (by simp [member])
    rw [Emit.fieldScalars, Emit.fieldScalars]
    split
    · exact rest
    · refine bind (lift (h.field target target' plain i)) fun part fixed => ?_
      refine bind (each ⟨name, ty⟩ (by simp) part fixed) fun us hu => ?_
      refine bind rest fun ws hw => pure fun u member => ?_
      exact (List.mem_append.mp member).elim (hu u) (hw u)

theorem scalarsAt (plain : B.Plain) (h : v.Fixed B) (t : Ty) :
    Echoes B (Emit.scalarsAt target t v) (Emit.scalarsAt target' t v)
      fun vs => ∀ u ∈ vs, u.Fixed B := by
  induction t using Ty.induct generalizing v with
  | scalar k =>
    rw [Emit.scalarsAt, Emit.scalarsAt]
    exact pure (by simpa using h)
  | struct s ih =>
    rw [Emit.scalarsAt, Emit.scalarsAt]
    split
    · obtain ⟨uid, group, name, fields, matrix, js, glsl⟩ := s
      rw [structScalars, structScalars, cache_fixed target h, cache_fixed target' h, pure_bind,
        pure_bind]
      exact fieldScalars target target' plain h 0 fun f member v fixed => ih f member fixed
    · exact defect _
  | array of len _ =>
    rw [Emit.scalarsAt, Emit.scalarsAt]
    exact defect _
  | alt first others _ _ =>
    rw [Emit.scalarsAt, Emit.scalarsAt]
    exact defect _

theorem scalars (plain : B.Plain) (h : v.Fixed B) :
    Echoes B (Emit.scalars target v) (Emit.scalars target' v) fun vs => ∀ u ∈ vs, u.Fixed B :=
  scalarsAt target target' plain h v.ty

theorem swizzle (plain : B.Plain) (h : v.Fixed B) (indices : List Nat) :
    Echoes B (Emit.swizzle target v indices) (Emit.swizzle target' v indices)
      fun w => w.Fixed B := by
  unfold Emit.swizzle
  split
  · exact defect _
  · refine bind (vectorTy _ _) fun ty valid => ?_
    unfold swizzleTo
    simp only [h.isConst, Bool.not_true, Bool.and_false, Bool.false_eq_true, if_false]
    refine bind (scalars target target' plain h) fun all fixed => ?_
    refine bind (mapM (Q := fun w => w.Fixed B) fun i _ => ?_) fun picked parts => ?_
    · split
      · rename_i w found
        exact pure (fixed w (List.mem_of_getElem? found))
      · exact defect _
    · exact lift (Value.fromScalars_fixed target target' plain valid parts)

theorem fieldNamed (plain : B.Plain) (h : v.Fixed B) (name : Ident) :
    Echoes B (Emit.fieldNamed target v name) (Emit.fieldNamed target' v name)
      fun w => w.Fixed B := by
  unfold Emit.fieldNamed
  split
  · exact lift (h.field target target' plain _)
  · split
    · split
      · exact swizzle target target' plain h _
      · exact locating (problem _)
    · exact locating (problem _)

/-- An element of a constant array. -/
theorem index {K : Known} (closed : K.Closed) (h : v.Fixed B) (valid : v.Over K) {i : Value}
    (hi : i.Fixed B) (validIndex : i.Over K) :
    Echoes B (Emit.index target v i) (Emit.index target' v i) fun w => w.Fixed B := by
  unfold Emit.index
  split
  · exact problem _
  · rename_i of len array
    have ty := Ty.eq_of_array? array
    have ofValid : of.Over B := by
      have own := h.ty
      rw [ty] at own
      exact own.1
    obtain ⟨c, payload⟩ := h.const
    have holds := valid.const c payload
    rw [ty, Ty.Holds] at holds
    obtain ⟨items, rfl, _⟩ := holds
    have known : v.const?.bind Constant.items? = some items := by
      rw [Value.const?_eq_some.mpr payload]
      rfl
    have converted := hi.convert_scalar target target' .int
    refine bind (lift ⟨converted.1, fun j run => ?_⟩) fun j (hj : ∃ n, knownIndex? j = some n) => ?_
    · have integer : Ty.i32.Over K := trivial
      have own := closed.convert_gives validIndex integer target
      rw [run] at own
      exact (converted.2 j run).knownIndex? own
    obtain ⟨n, number⟩ := hj
    rw [number, known]
    dsimp only
    split
    · exact problem _
    · split
      · exact pure (Value.fixed_const _ ofValid)
      · exact defect _

end Echoes

end Ember
