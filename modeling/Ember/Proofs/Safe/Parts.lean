import Ember.Emit.Project
import Ember.Proofs.Safe

/-!
# Parts of values, safely

Scalars of a vector, components, fields and elements.
-/

set_option autoImplicit false

namespace Ember

def Value.Of (K : Known) (t : Ty) (v : Value) : Prop := v.Over K ∧ v.ty = t

namespace Value.Of

variable {K L : Known} {t : Ty} {v : Value}

theorem ty_over (h : v.Of K t) : t.Over K := h.2 ▸ h.1.ty

theorem mono (h : v.Of K t) (sub : K.Sub L) : v.Of L t := ⟨h.1.mono sub, h.2⟩

theorem toCode (h : v.Of K t) (closed : K.Closed) (kept : t.isVoid = false) (target : Target) :
    ∃ code, v.toCode target = .ok code :=
  closed.toCode_ok h.1 (h.2 ▸ kept) target

/-- The code of a value that keeps something. -/
theorem toCode_gives (h : v.Of K t) (closed : K.Closed) (kept : t.isVoid = false)
    (target : Target) : Gives (v.toCode target) (fun _ => True) K.Excuses := by
  obtain ⟨code, run⟩ := h.toCode closed kept target
  exact .of_ok run trivial

theorem const {c : Constant} (valid : t.Over K) (holds : t.Holds c) : (Value.const c t).Of K t :=
  ⟨Value.over_const valid holds, rfl⟩

theorem code {c : Code} {place : Bool} (valid : t.Over K) (kept : t.isVoid = false) :
    Value.Of K t ⟨.code c, t, place⟩ := ⟨Value.over_code valid kept, rfl⟩

theorem int (n : Int32) : (Value.int n).Of K .i32 :=
  const trivial (by simp only [Ty.i32, Ty.Holds]; exact ⟨_, rfl, rfl⟩)

theorem float (x : Float32) : (Value.float x).Of K .f32 :=
  const trivial (by simp only [Ty.f32, Ty.Holds]; exact ⟨_, rfl, rfl⟩)

theorem bool (b : Bool) : (Value.bool b).Of K .bool :=
  const trivial (by simp only [Ty.bool, Ty.Holds]; exact ⟨_, rfl, rfl⟩)

theorem unit (h : t.IsUnit K) : (Value.const .void t).Of K t := by
  obtain ⟨s, rfl, known, fields⟩ := h
  refine const known ?_
  rw [Ty.Holds, Struct.holds_iff, fields]
  exact ⟨[], rfl, .nil⟩

end Value.Of

theorem Value.Scalars.mono {K L : Known} {k : ScalarKind} {vs : List Value}
    (h : Value.Scalars K k vs) (sub : K.Sub L) : Value.Scalars L k vs :=
  fun v member => ⟨(h v member).1.mono sub, (h v member).2⟩

theorem Ty.field?_some {t : Ty} {name : String} {i : Nat} {ty : Ty}
    (found : t.field? name = some (i, ty)) :
    ∃ s f, t.struct? = some s ∧ s.fields[i]? = some f ∧ f.ty = ty := by
  cases t with
  | scalar k => simp [Ty.field?] at found
  | array of len => simp [Ty.field?] at found
  | struct s =>
    simp only [Ty.field?, Option.bind_eq_bind, Option.bind_eq_some_iff, Option.pure_def,
      Option.some.injEq, Prod.mk.injEq] at found
    obtain ⟨j, _, f, at_j, rfl, rfl⟩ := found
    exact ⟨s, f, rfl, at_j, rfl⟩
  | alt first others =>
    simp only [Ty.field?, Option.bind_eq_bind, Option.bind_eq_some_iff] at found
    obtain ⟨j, _, f, at_j, found⟩ := found
    split at found
    · simp only [Option.pure_def, Option.some.injEq, Prod.mk.injEq] at found
      obtain ⟨rfl, rfl⟩ := found
      exact ⟨first, f, rfl, at_j, rfl⟩
    · simp at found

theorem Ty.eq_of_array? {t of : Ty} {len : Nat} (found : t.array? = some (of, len)) :
    t = .array of len := by
  cases t with
  | array of' len' =>
    cases found
    rfl
  | scalar _ => cases found
  | struct _ => cases found
  | alt _ _ => cases found

namespace Safe

open Emit

variable {K : Known}

theorem toCode {v : Value} {t : Ty} (h : v.Of K t) (kept : t.isVoid = false) (target : Target) :
    Safe K (liftM (v.toCode target)) fun _ _ => True :=
  of_closed fun closed => lift (h.toCode_gives closed kept target)

theorem convert {v : Value} {t : Ty} (h : v.Over K) (valid : t.Over K) (target : Target) :
    Safe K (liftM (v.convert target t)) fun L w => w.Of L t :=
  of_closed fun closed => lift (closed.convert_gives h valid target)

theorem expect {v : Value} {t : Ty} (h : v.Over K) (valid : t.Over K) (target : Target)
    (span : Span) : Safe K (Emit.expect target v t span) fun L w => w.Of L t :=
  locating (convert h valid target)

theorem voidTy : Safe K Emit.voidTy fun L t => t.IsUnit L :=
  look fun _ valid => valid.program.builtins.void

theorem voidValue : Safe K Emit.voidValue fun L v => v.Over L := by
  refine bind voidTy fun L _ _ t unit => ?_
  exact pure (Value.Of.unit unit).1

/-- Vectors by their shapes. -/
theorem vectorTy (k : ScalarKind) (w : Nat) :
    Safe K (Emit.vectorTy k w) fun L t => t.Over L ∧ t.shape? = some (k, w) := by
  refine bind (look (Q := fun L b => b.Over L) fun _ valid => valid.program.builtins)
    fun L _ _ b builtins => ?_
  refine lift ?_
  unfold Builtins.vector
  split
  case isTrue one =>
    subst one
    exact ⟨trivial, by rw [Ty.shape?]⟩
  case isFalse =>
    split
    · rename_i ty found
      exact builtins.vectors _ (mem_of_lookup found)
    · exact L.excuses_problem _

theorem cache {v : Value} {t : Ty} (h : v.Of K t) (target : Target) :
    Safe K (Emit.cache target v) fun L w => w.Of L t := by
  unfold Emit.cache
  by_cases keep : (v.isSimple target || v.ty.isVoid) = true
  · rw [if_pos keep]
    exact pure h
  rw [if_neg keep]
  simp only [Bool.or_eq_true, not_or, Bool.not_eq_true] at keep
  have kept : t.isVoid = false := h.2 ▸ keep.2
  refine bind (toCode h kept target) fun L sub _ c _ => ?_
  refine bind temp fun M sub' _ name _ => ?_
  refine bind (declareVar name v.ty (some c) false) fun N sub'' _ _ _ => ?_
  have valid := (h.mono ((sub.trans sub').trans sub'')).ty_over
  rw [h.2]
  exact pure (Value.Of.code valid kept)

theorem cachedCode {v : Value} {t : Ty} (h : v.Of K t) (kept : t.isVoid = false)
    (target : Target) : Safe K (Emit.cachedCode target v) fun _ _ => True := by
  unfold Emit.cachedCode
  split
  · refine bind (toCode h kept target) fun L sub _ c _ => ?_
    refine bind temp fun M sub' _ name _ => ?_
    refine bind (declareVar name v.ty (some c) false) fun N sub'' _ _ _ => ?_
    exact pure trivial
  · refine bind (cache h target) fun L _ _ w own => ?_
    exact toCode own kept target

theorem ownedCode {v : Value} {t : Ty} (h : v.Of K t) (kept : t.isVoid = false)
    (target : Target) : Safe K (liftM (Emit.ownedCode target v)) fun _ _ => True := by
  refine of_closed fun closed => lift ?_
  exact .bind ((h.toCode_gives closed kept target).imp fun c _ => trivial)

theorem discard (target : Target) (v : Value) : Safe K (Emit.discard target v) fun _ _ => True := by
  unfold Emit.discard
  split
  · exact pure trivial
  · split
    · exact pure trivial
    · exact line _

/-! ## Fields and scalars -/

theorem field {base : Value} {t : Ty} {s : Struct} {i : Nat} {f : Field} (h : base.Of K t)
    (struct : t.struct? = some s) (found : s.fields[i]? = some f) (target : Target) :
    Safe K (liftM (base.field target i)) fun L w => w.Of L f.ty := by
  refine of_closed fun closed => lift (.of_exists ?_)
  exact closed.field_ok h.1 (h.2 ▸ struct) found target

theorem fieldScalars {s : Struct} {k : ScalarKind} {fs : List Field} {ws : List Nat} {i : Nat}
    {v : Value} {target : Target} (h : v.Of K (.struct s)) (rest : s.fields.drop i = fs)
    (each : ∀ f ∈ fs, ∀ {L : Known} {w : Nat} {v : Value}, v.Of L f.ty → f.ty.shape? = some (k, w) →
      Safe L (scalarsAt target f.ty v) fun M vs => Value.Scalars M k vs ∧ vs.length = w)
    (shapes : (Field.kept fs).map (fun f => f.ty.shape?) = ws.map (fun v => some (k, v))) :
    Safe K (Emit.fieldScalars target i fs v)
      fun L vs => Value.Scalars L k vs ∧ vs.length = ws.sum := by
  induction fs generalizing K ws i with
  | nil =>
    have empty : ws = [] := by simpa [Field.kept] using shapes.symm
    subst empty
    rw [Emit.fieldScalars]
    exact pure ⟨by simp [Value.Scalars], rfl⟩
  | cons f fs ih =>
    obtain ⟨name, ty⟩ := f
    obtain ⟨found, rest'⟩ := getElem?_of_drop rest
    rw [Emit.fieldScalars]
    cases void : ty.isVoid with
    | true =>
      rw [if_pos rfl]
      exact ih h rest' (fun f member => each f (by simp [member]))
        (by simpa [Field.kept, void] using shapes)
    | false =>
      rw [if_neg Bool.false_ne_true]
      cases ws with
      | nil => simp [Field.kept, void] at shapes
      | cons w ws =>
        simp only [Field.kept, void, Bool.not_false, List.filter_cons_of_pos, List.map_cons,
          List.cons.injEq] at shapes
        refine bind (field h rfl found target) fun L sub _ component own => ?_
        refine bind (each ⟨name, ty⟩ (by simp) own shapes.1) fun M sub' _ first scalars => ?_
        refine bind (ih (h.mono (sub.trans sub')) rest' (fun f member => each f (by simp [member]))
          shapes.2) fun N sub'' _ others scalars' => ?_
        refine pure ⟨fun u member => ?_, ?_⟩
        · rcases List.mem_append.mp member with front | back
          · exact scalars.1.mono sub'' u front
          · exact scalars'.1 u back
        · rw [List.length_append, scalars.2, scalars'.2, List.sum_cons]

/-- The scalars of what has a shape, one for each component. -/
theorem scalarsAt {t : Ty} {k : ScalarKind} {w : Nat} {v : Value} (h : v.Of K t)
    (shape : t.shape? = some (k, w)) (target : Target) :
    Safe K (Emit.scalarsAt target t v) fun L vs => Value.Scalars L k vs ∧ vs.length = w := by
  induction t using Ty.induct generalizing K w v with
  | scalar k' =>
    simp only [Ty.shape?, Option.some.injEq, Prod.mk.injEq] at shape
    obtain ⟨rfl, rfl⟩ := shape
    rw [Emit.scalarsAt]
    refine pure ⟨fun u member => ?_, rfl⟩
    rw [List.mem_singleton.mp member]
    exact h
  | struct s ih =>
    rw [Emit.scalarsAt, if_pos (by simp [shape])]
    rw [Ty.shape?] at shape
    obtain ⟨_, _, _, ws, _, rfl, shapes⟩ := Struct.shape?_some shape
    have struct_eq : Emit.structScalars target s v = (do
        Emit.fieldScalars target 0 s.fields (← Emit.cache target v)) := by
      obtain ⟨uid, group, name, fields, matrix, js, glsl⟩ := s
      rw [Emit.structScalars]
    rw [struct_eq]
    refine bind (cache h target) fun L _ _ u own => ?_
    exact fieldScalars own rfl (fun f member _ _ _ own shape => ih f member own shape) shapes
  | array of len _ => simp [Ty.shape?] at shape
  | alt first others _ _ => simp [Ty.shape?] at shape

theorem scalars {t : Ty} {k : ScalarKind} {w : Nat} {v : Value} (h : v.Of K t)
    (shape : t.shape? = some (k, w)) (target : Target) :
    Safe K (Emit.scalars target v) fun L vs => Value.Scalars L k vs ∧ vs.length = w := by
  unfold Emit.scalars
  rw [h.2]
  exact scalarsAt h shape target

/-! ## Components, fields by name, and elements -/

theorem swizzleTo {t ty : Ty} {k : ScalarKind} {w : Nat} {base : Value} {indices : List Nat}
    (h : base.Of K t) (shape : t.shape? = some (k, w)) (small : ∀ i ∈ indices, i < w)
    (valid : ty.Over K) (goal : ty.shape? = some (k, indices.length)) (target : Target) :
    Safe K (Emit.swizzleTo target base indices ty) fun L v => v.Of L ty := by
  refine of_closed fun closed => ?_
  have kept := closed.not_void_of_shape h.ty_over shape
  unfold Emit.swizzleTo
  dsimp only
  split
  · refine bind (toCode h kept target) fun L sub closedL c _ => ?_
    have valid := valid.mono sub
    exact pure (Value.Of.code valid (closedL.not_void_of_shape valid goal))
  · refine bind (scalars h shape target) fun L sub _ all own => ?_
    refine bind (mapM (R := fun M _ v => v.Over M ∧ v.ty = .scalar k) ?_ ?_)
      fun M sub' closedM picked parts => ?_
    · rintro M N more i v ⟨valid, ty⟩
      exact ⟨valid.mono more, ty⟩
    · intro M more i member
      have lt : i < all.length := own.2.symm ▸ small i member
      rw [List.getElem?_eq_getElem lt]
      exact pure ((own.1.mono more) _ (List.getElem_mem lt))
    · refine lift (.of_exists ?_)
      exact closedM.fromScalars_ok (valid.mono (sub.trans sub')) goal parts.length_eq.le
        (fun v member => by
          obtain ⟨_, _, part⟩ := exists_left_of_forall₂ parts member
          exact part) target

theorem swizzle {t : Ty} {k : ScalarKind} {w : Nat} {base : Value} {indices : List Nat}
    (h : base.Of K t) (shape : t.shape? = some (k, w)) (small : ∀ i ∈ indices, i < w)
    (target : Target) : Safe K (Emit.swizzle target base indices) fun L v => v.Over L := by
  unfold Emit.swizzle
  rw [h.2, shape]
  refine bind (vectorTy k indices.length) fun L sub _ ty vector => ?_
  exact (swizzleTo (h.mono sub) shape small vector.1 vector.2 target).mono fun _ _ _ own => own.1

theorem fieldNamed {base : Value} (h : base.Over K) (name : Ident) (target : Target) :
    Safe K (Emit.fieldNamed target base name) fun L v => v.Over L := by
  unfold Emit.fieldNamed
  split
  · rename_i i ty found
    obtain ⟨s, f, struct, at_i, _⟩ := Ty.field?_some found
    exact (field ⟨h, rfl⟩ struct at_i target).mono fun _ _ _ own => own.1
  · split
    · rename_i indices kind width _ shape
      split
      case isTrue small =>
        exact swizzle ⟨h, rfl⟩ shape (by simpa using small) target
      case isFalse => exact locating (problem _)
    · exact locating (problem _)

theorem elementCode {base i : Value} {of : Ty} {len : Nat} (h : base.Of K (.array of len))
    (index : i.Of K .i32) (target : Target) :
    Safe K (Emit.elementCode target base i of) fun L v => v.Of L of := by
  unfold Emit.elementCode
  refine bind (cachedCode h rfl target) fun L sub _ c _ => ?_
  refine bind (toCode (index.mono sub) rfl target) fun M sub' _ c' _ => ?_
  have valid := (h.mono (sub.trans sub')).ty_over
  exact pure (Value.Of.code valid.1 valid.2.1)

theorem element {base i : Value} {of : Ty} {len : Nat} (h : base.Over K) (index : i.Over K)
    (found : base.ty.array? = some (of, len)) (target : Target) :
    Safe K (Emit.index target base i) fun L v => v.Of L of := by
  have ty : base.ty = .array of len := Ty.eq_of_array? found
  unfold Emit.index
  rw [found]
  refine bind (convert (t := .i32) index trivial target) fun L sub _ j own => ?_
  have base_of : base.Of L (.array of len) := ⟨h.mono sub, ty⟩
  split
  · exact elementCode base_of own target
  · rename_i n _
    split
    · exact problem _
    · rename_i bounds
      split
      · exact elementCode base_of own target
      · rename_i items const
        obtain ⟨c, const, found_items⟩ := Option.bind_eq_some_iff.mp const
        have holds := base_of.1.const c (Value.const?_eq_some.mp const)
        rw [ty, Ty.Holds] at holds
        obtain ⟨cs, rfl, length, each⟩ := holds
        cases Option.some.inj found_items
        have lt : n.toInt.toNat < items.length := by
          simp only [Bool.or_eq_true, decide_eq_true_eq, not_or] at bounds
          have nonneg : 0 ≤ n.toInt := by
            have := bounds.1
            rw [Int32.lt_iff_toInt_lt] at this
            simpa using this
          omega
        rw [List.getElem?_eq_getElem lt]
        exact pure (Value.Of.const base_of.ty_over.1 (each _ (List.getElem_mem lt)))

theorem index {base i : Value} (h : base.Over K) (index : i.Over K) (target : Target) :
    Safe K (Emit.index target base i) fun L v => v.Over L := by
  cases found : base.ty.array? with
  | none =>
    unfold Emit.index
    rw [found]
    exact problem _
  | some array => exact (element h index found target).mono fun _ _ _ own => own.1

end Safe
end Ember
