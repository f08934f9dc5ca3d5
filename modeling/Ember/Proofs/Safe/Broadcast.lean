import Ember.Emit.Broadcast
import Ember.Proofs.Safe.Parts

/-!
# Operations on vectors, safely

Operands have shapes of one kind, and the operation has values on that kind. A scalar counts for
every component, and the others have as many components as the result.
-/

set_option autoImplicit false

namespace Ember

def Value.Shaped (K : Known) (k : ScalarKind) (v : Value) : Prop :=
  v.Over K ∧ ∃ w, v.ty.shape? = some (k, w)

theorem Value.Of.shaped {K : Known} {t : Ty} {k : ScalarKind} {w : Nat} {v : Value} (h : v.Of K t)
    (shape : t.shape? = some (k, w)) : v.Shaped K k := ⟨h.1, w, h.2 ▸ shape⟩

theorem Ty.shape?_scalar (k : ScalarKind) : (Ty.scalar k).shape? = some (k, 1) := by
  rw [Ty.shape?]

namespace Emit

variable {K : Known}

/-! ## Scalars -/

theorem scalars_of_consts {k : ScalarKind} {args : List Value} {cs : List Constant}
    (own : Value.Scalars K k args) (consts : Value.consts? args = some cs) :
    ∃ xs : List Scalar, cs.mapM Constant.scalar? = some xs ∧ xs.length = args.length ∧
      ∀ x ∈ xs, x.kind = k := by
  have related := Value.consts?_eq_some consts
  clear consts
  induction related with
  | nil => exact ⟨[], rfl, rfl, by simp⟩
  | cons payload _ ih =>
    obtain ⟨xs, rest, length, kinds⟩ := ih fun v member => own v (by simp [member])
    obtain ⟨valid, ty⟩ := own _ (List.mem_cons_self ..)
    have holds := valid.const _ payload
    rw [ty, Ty.Holds] at holds
    obtain ⟨x, rfl, kind⟩ := holds
    refine ⟨x :: xs, ?_, by simp [length], by simpa [kind] using kinds⟩
    simp [List.mapM_cons, Constant.scalar?, rest]

theorem fold_gives {op : ScalarOp} {k : ScalarKind} {cs : List Constant} {xs : List Scalar}
    (supports : op.Supports k) (scalars : cs.mapM Constant.scalar? = some xs)
    (arity : xs.length = op.arity) (kinds : ∀ x ∈ xs, x.kind = k) :
    Gives (op.fold cs) (Ty.scalar (op.resultKind k)).Holds K.Excuses := by
  unfold ScalarOp.fold
  simp only [scalars]
  split
  · exact K.excuses_problem _
  · rename_i nonzero
    obtain ⟨y, value, kind⟩ := supports xs arity kinds (by simpa using nonzero)
    rw [value, Gives, Ty.Holds]
    exact ⟨y, rfl, kind⟩

/-- Operations on scalars give scalars. -/
theorem scalarOp_gives (closed : K.Closed) {op : ScalarOp} {k : ScalarKind} {args : List Value}
    (supports : op.Supports k) (own : Value.Scalars K k args) (arity : args.length = op.arity)
    (target : Target) :
    Gives (scalarOp target op args) (Value.Of K (.scalar (op.resultKind k))) K.Excuses := by
  have kind : args.head?.bind (fun v => v.ty.scalarKind?) = some k := by
    cases args with
    | nil =>
      have positive := op.arity_pos
      simp at arity
      omega
    | cons v rest => simp [(own v (by simp)).2, Ty.scalarKind?]
  unfold scalarOp
  rw [kind]
  dsimp only
  cases consts : Value.consts? args with
  | some cs =>
    obtain ⟨xs, scalars, length, kinds⟩ := scalars_of_consts own consts
    refine .bind ((fold_gives supports scalars (length.trans arity) kinds).imp fun c holds => ?_)
    exact Value.Of.const trivial holds
  | none =>
    have each (v : Value) (member : v ∈ args) : Gives (v.toCode target) (fun _ => True) K.Excuses :=
      (show v.Of K (.scalar k) from own v member).toCode_gives closed rfl target
    exact .bind ((Gives.mapM each).imp fun codes _ => Value.Of.code trivial rfl)

/-- The component of an operand: its only one, or the one at the place asked for. -/
theorem component_gives {k : ScalarKind} {width i : Nat} {part : List Value}
    (own : Value.Scalars K k part) (length : part.length = width ∨ part.length = 1)
    (small : i < width) :
    Gives (match part with
      | [v] => Except.ok v
      | vs => match vs[i]? with
        | some v => .ok v
        | none => .error (.defect .noComponents))
      (fun v => v.Over K ∧ v.ty = .scalar k) K.Excuses := by
  split
  · exact own _ (by simp)
  · rename_i several
    have lt : i < part.length := by
      rcases length with wide | one
      · omega
      · obtain ⟨v, rfl⟩ := List.length_eq_one_iff.mp one
        exact absurd rfl (several v)
    rw [List.getElem?_eq_getElem lt]
    exact own _ (List.getElem_mem lt)

theorem pick_one {us : List Value} {u : Value} {i j : Nat} (found : us[j]? = some u)
    (counts : us.length = 1 ∨ j = i) : pick [us] i = .ok [u] := by
  match us with
  | [] => simp at found
  | [v] =>
    obtain ⟨inside, rfl⟩ := List.getElem?_eq_some_iff.mp found
    simp [pick, pure, Except.pure, bind, Except.bind]
  | v :: w :: rest =>
    obtain rfl : j = i := by simpa using counts
    simp [pick, found, pure, Except.pure, bind, Except.bind]

/-- A component of each operand. -/
theorem pick_gives {k : ScalarKind} {width i : Nat} {parts : List (List Value)}
    (own : ∀ part ∈ parts, Value.Scalars K k part ∧ (part.length = width ∨ part.length = 1))
    (small : i < width) :
    Gives (pick parts i) (fun vs => Value.Scalars K k vs ∧ vs.length = parts.length)
      K.Excuses := by
  unfold pick
  refine (Gives.mapM fun part member =>
    component_gives (own part member).1 (own part member).2 small).imp
      fun vs related => ⟨fun v member => ?_, related.length_eq.symm⟩
  obtain ⟨_, _, h⟩ := exists_left_of_forall₂ related member
  exact h

/-! ## The type that operands share -/

theorem isScalar_iff {t : Ty} : t.isScalar = true ↔ ∃ k, t = .scalar k := by
  cases t <;> simp [Ty.isScalar, Ty.scalarKind?]

theorem shapedTy_gives (closed : K.Closed) {args : List Value} {found : Option Ty}
    (own : ∀ v ∈ args, v.Over K) (foundValid : ∀ t ∈ found, t.Over K) :
    Gives (shapedTy found args)
      (fun shaped => (∀ t ∈ found, shaped = some t) ∧
        (∀ t ∈ shaped, found = some t ∨ ∃ v ∈ args, v.ty = t) ∧
        ∀ v ∈ args, v.ty.isScalar = false → shaped = some v.ty) K.Excuses := by
  induction args generalizing found with
  | nil =>
    rw [shapedTy]
    exact ⟨fun _ => id, fun t h => .inl h, by simp⟩
  | cons v vs ih =>
    have rest := fun u (member : u ∈ vs) => own u (by simp [member])
    rw [shapedTy.eq_def]
    dsimp only
    split
    case isTrue scalar =>
      refine (ih rest foundValid).imp ?_
      rintro shaped ⟨kept, source, all⟩
      refine ⟨kept, fun t h => ?_, ?_⟩
      · rcases source t h with before | ⟨u, member, ty⟩
        · exact .inl before
        · exact .inr ⟨u, by simp [member], ty⟩
      · intro u member vector
        rcases List.mem_cons.mp member with rfl | later
        · simp [scalar] at vector
        · exact all u later vector
    case isFalse vector =>
      cases found with
      | none =>
        have firstValid : ∀ t ∈ some v.ty, t.Over K := by
          rintro t ⟨⟩
          exact (own v (by simp)).ty
        refine (ih rest firstValid).imp ?_
        rintro shaped ⟨kept, source, all⟩
        have first := kept v.ty rfl
        refine ⟨by simp, fun t h => .inr ?_, ?_⟩
        · rcases source t h with before | ⟨u, member, ty⟩
          · exact ⟨v, by simp, Option.some.inj before⟩
          · exact ⟨u, by simp [member], ty⟩
        · intro u member vector'
          rcases List.mem_cons.mp member with rfl | later
          · exact first
          · exact all u later vector'
      | some ty =>
        dsimp only
        split
        case isFalse => exact K.excuses_problem _
        case isTrue same =>
          have equal := closed.eq_of_same (foundValid ty rfl) (own v (by simp)).ty same
          refine (ih rest foundValid).imp ?_
          rintro shaped ⟨kept, source, all⟩
          refine ⟨kept, fun t h => ?_, ?_⟩
          · rcases source t h with before | ⟨u, member, ty⟩
            · exact .inl before
            · exact .inr ⟨u, by simp [member], ty⟩
          · intro u member vector'
            rcases List.mem_cons.mp member with rfl | later
            · rw [← equal]
              exact kept ty rfl
            · exact all u later vector'

/-- The operands of an operation share a type, up to scalars that count for every component. -/
structure Shared (K : Known) (k : ScalarKind) (args : List Value) (t : Ty) (width : Nat) : Prop where
  valid : t.Over K
  shape : t.shape? = some (k, width)
  each : ∀ v ∈ args, v.Of K t ∨ v.Of K (.scalar k)

theorem Shared.mono {k : ScalarKind} {args : List Value} {t : Ty} {width : Nat} {L : Known}
    (h : Shared K k args t width) (sub : K.Sub L) : Shared L k args t width where
  valid := h.valid.mono sub
  shape := h.shape
  each v member := (h.each v member).imp (fun own => own.mono sub) fun own => own.mono sub

theorem shared_gives (closed : K.Closed) {k : ScalarKind} {args : List Value}
    (own : ∀ v ∈ args, v.Shaped K k) (some_args : args ≠ []) :
    Gives (shapedTy none args)
      (fun shaped => ∃ t width, commonShape shaped args = some (k, width) ∧
        shaped.getD (.scalar k) = t ∧ Shared K k args t width ∧ ∃ v ∈ args, v.ty = t)
      K.Excuses := by
  refine (shapedTy_gives closed (fun v member => (own v member).1) (by simp)).imp ?_
  rintro shaped ⟨_, source, all⟩
  have scalar_kind (v : Value) (member : v ∈ args) (scalar : v.ty.isScalar = true) :
      v.ty = .scalar k := by
    obtain ⟨k', ty⟩ := isScalar_iff.mp scalar
    obtain ⟨_, w, shape⟩ := own v member
    rw [ty, Ty.shape?_scalar, Option.some.injEq, Prod.mk.injEq] at shape
    rw [ty, shape.1]
  cases shaped with
  | some t =>
    obtain ⟨v, member, rfl⟩ : ∃ v ∈ args, v.ty = t := by simpa using source t rfl
    obtain ⟨valid, w, shape⟩ := own v member
    refine ⟨v.ty, w, shape, rfl, ⟨valid.ty, shape, fun u u_member => ?_⟩, v, member, rfl⟩
    cases scalar : u.ty.isScalar with
    | true => exact .inr ⟨(own u u_member).1, scalar_kind u u_member scalar⟩
    | false => exact .inl ⟨(own u u_member).1, (Option.some.inj (all u u_member scalar)).symm⟩
  | none =>
    have all_scalar (v : Value) (member : v ∈ args) : v.Of K (.scalar k) := by
      cases scalar : v.ty.isScalar with
      | true => exact ⟨(own v member).1, scalar_kind v member scalar⟩
      | false => simpa using all v member scalar
    cases args with
    | nil => simp at some_args
    | cons v rest =>
      have first := (all_scalar v (by simp)).2
      refine ⟨.scalar k, 1, by simp [commonShape, first, Ty.shape?_scalar], rfl, ?_, v, by simp, first⟩
      exact ⟨trivial, Ty.shape?_scalar k, fun u member => .inl (all_scalar u member)⟩

end Emit

namespace Safe

open Emit

variable {K : Known} {k : ScalarKind} {args : List Value} {t : Ty} {width : Nat}

/-! ## Operations on vectors -/

/-- Each operand has the components of the result, or one that counts for all. -/
theorem components (own : Shared K k args t width) (target : Target) :
    Safe K (Emit.components target args) fun L parts =>
      parts.length = args.length ∧
        ∀ part ∈ parts, Value.Scalars L k part ∧ (part.length = width ∨ part.length = 1) := by
  induction args generalizing K with
  | nil => exact pure ⟨rfl, by simp⟩
  | cons v vs ih =>
    rw [Emit.components]
    have first : Safe K (do Emit.scalars target (← Emit.cache target v)) fun L part =>
        Value.Scalars L k part ∧ (part.length = width ∨ part.length = 1) := by
      rcases own.each v (by simp) with vector | scalar
      · refine bind (cache vector target) fun L _ _ u own' => ?_
        exact (scalars own' own.shape target).mono fun _ _ _ h => ⟨h.1, .inl h.2⟩
      · refine bind (cache scalar target) fun L _ _ u own' => ?_
        exact (scalars own' (Ty.shape?_scalar k) target).mono fun _ _ _ h => ⟨h.1, .inr h.2⟩
    have split : (do
        let s ← Emit.scalars target (← Emit.cache target v)
        return s :: (← Emit.components target vs)) = (do
        let s ← (do Emit.scalars target (← Emit.cache target v))
        return s :: (← Emit.components target vs)) := by
      rw [bind_assoc]
    rw [split]
    refine bind first fun L sub _ part h => ?_
    have others := (own.mono sub)
    refine bind (ih ⟨others.valid, others.shape, fun u member => others.each u (by simp [member])⟩)
      fun M sub' _ parts h' => ?_
    refine pure ⟨by simp [h'.1], fun q member => ?_⟩
    rcases List.mem_cons.mp member with rfl | later
    · exact ⟨h.1.mono sub', h.2⟩
    · exact h'.2 q later

theorem checkDivisor (own : Shared K k args t width) (op : ScalarOp) (target : Target) :
    Safe K (Emit.checkDivisor target op k args) fun _ _ => True := by
  unfold Emit.checkDivisor
  split
  · split
    · rename_i divisor found
      split
      · have member := List.mem_of_getElem? found
        have decomposed : Safe K (Emit.scalars target divisor) fun _ _ => True := by
          rcases own.each divisor member with vector | scalar
          · exact (scalars vector own.shape target).mono fun _ _ _ _ => trivial
          · exact (scalars scalar (Ty.shape?_scalar k) target).mono fun _ _ _ _ => trivial
        refine bind decomposed fun L _ _ parts _ => ?_
        split
        · exact problem _
        · exact pure trivial
      · exact pure trivial
    · exact pure trivial
  · exact pure trivial

/-- Operands of whole vectors have code. -/
theorem operandCodes (own : Shared K k args t width) (op : ScalarOp) :
    Safe K (args.mapM fun v => liftM (wholeOperand op t width v) : Emit (List Code))
      fun _ _ => True := by
  refine of_closed fun closed => ?_
  have kept := closed.not_void_of_shape own.valid own.shape
  refine (mapM (R := fun _ _ _ => True) (fun _ _ _ _ _ h => h) fun L sub v member => ?_).mono
    fun _ _ _ _ => trivial
  refine of_closed fun closedL => lift ?_
  unfold wholeOperand
  rcases (own.mono sub).each v member with vector | scalar
  · exact .bind ((vector.toCode_gives closedL kept .glsl).imp fun _ _ => trivial)
  · exact .bind ((scalar.toCode_gives closedL rfl .glsl).imp fun _ _ => trivial)

theorem shared (own : ∀ v ∈ args, v.Shaped K k) (some_args : args ≠ []) :
    Safe K (liftM (shapedTy none args)) fun L shaped => ∃ t width,
      commonShape shaped args = some (k, width) ∧ shaped.getD (.scalar k) = t ∧
        Shared L k args t width ∧ ∃ v ∈ args, v.ty = t :=
  of_closed fun closed => lift (shared_gives closed own some_args)

/-- Results for all components make a value of the type. -/
theorem mapScalars {op : ScalarOp} {parts : List (List Value)} {out : Ty}
    (supports : op.Supports k)
    (own : ∀ part ∈ parts, Value.Scalars K k part ∧ (part.length = width ∨ part.length = 1))
    (arity : parts.length = op.arity) (valid : out.Over K)
    (shape : out.shape? = some (op.resultKind k, width)) (target : Target) :
    Safe K (do
      let results ← (List.range width).mapM fun i => do
        liftM (scalarOp target op (← pick parts i))
      Value.fromScalars target out results : Emit Value) fun L v => v.Of L out := by
  refine bind (mapM (R := fun L _ v => v.Over L ∧ v.ty = .scalar (op.resultKind k)) ?_ ?_)
    fun L sub closed results related => ?_
  · rintro L M sub i v ⟨valid, ty⟩
    exact ⟨valid.mono sub, ty⟩
  · intro L sub i member
    refine of_closed fun closed => ?_
    have ownL := fun part (h : part ∈ parts) => And.imp_left (fun s => s.mono sub) (own part h)
    refine bind (lift (Q := fun M vs => Value.Scalars M k vs ∧ vs.length = parts.length)
      (pick_gives ownL (by simpa using member))) fun M _ closedM vs picked => ?_
    exact lift (scalarOp_gives closedM supports picked.1 (picked.2.trans arity) target)
  · refine lift (.of_exists (closed.fromScalars_ok (valid.mono sub) shape ?_ ?_ target))
    · rw [← related.length_eq, List.length_range]
    · intro v member
      obtain ⟨_, _, h⟩ := exists_left_of_forall₂ related member
      exact h

/-- The operation, once the type of its result is known. -/
theorem mapTo {op : ScalarOp} {out : Ty} (supports : op.Supports k)
    (own : Shared K k args t width) (arity : args.length = op.arity) (valid : out.Over K)
    (shape : out.shape? = some (op.resultKind k, width)) (target : Target) :
    Safe K (Emit.mapTo target op k width t out args) fun L v => v.Of L out := by
  unfold Emit.mapTo
  refine bind (checkDivisor own op target) fun L sub _ _ _ => ?_
  have own := own.mono sub
  have valid := valid.mono sub
  split
  · refine bind (operandCodes own op) fun M sub' closed operands _ => ?_
    have valid := valid.mono sub'
    exact pure (Value.Of.code valid (closed.not_void_of_shape valid shape))
  · refine bind (components own target) fun M sub' _ parts decomposed => ?_
    exact mapScalars supports decomposed.2 (decomposed.1.trans arity) (valid.mono sub') shape target

/-- Operations on operands that share a kind. -/
theorem mapOp {op : ScalarOp} (supports : op.Supports k) (own : ∀ v ∈ args, v.Shaped K k)
    (arity : args.length = op.arity) (target : Target) :
    Safe K (Emit.mapOp target op args) fun L v => v.Shaped L (op.resultKind k) := by
  have some_args : args ≠ [] := by
    rintro rfl
    have positive := op.arity_pos
    simp at arity
    omega
  unfold Emit.mapOp
  refine bind (shared own some_args) fun L sub closed shaped found => ?_
  obtain ⟨t, width, common, ty, shared, _⟩ := found
  rw [common]
  dsimp only
  rw [ty]
  split
  case isTrue same =>
    have shape : t.shape? = some (op.resultKind k, width) := by rw [same, shared.shape]
    exact bind (pure (Q := fun M out => out = t ∧ out.Over M) ⟨rfl, shared.valid⟩)
      fun M sub' _ out made => by
        rw [made.1]
        exact (mapTo supports (shared.mono sub') arity (made.1 ▸ made.2) shape target).mono
          fun _ _ _ own => own.shaped shape
  case isFalse =>
    refine bind (vectorTy _ _) fun M sub' _ out made => ?_
    exact (mapTo supports (shared.mono sub') arity made.1 made.2 target).mono
      fun _ _ _ own => own.shaped made.2

/-- A vector and a scalar of its kind give a vector of the type, if the operation keeps the kind. -/
theorem mapOp_scalar {op : ScalarOp} {v n : Value} (supports : op.Supports k)
    (keeps : op.resultKind k = k) (arity : op.arity = 2) (own : v.Shaped K k)
    (scalar : n.Of K (.scalar k)) (target : Target) :
    Safe K (Emit.mapOp target op [v, n]) fun L u => u.Of L v.ty := by
  have each : ∀ u ∈ [v, n], u.Shaped K k := by
    intro u member
    rcases List.mem_cons.mp member with rfl | rest
    · exact own
    · rw [List.mem_singleton.mp rest]
      exact scalar.shaped (Ty.shape?_scalar k)
  unfold Emit.mapOp
  refine bind (shared each (by simp)) fun L sub closed shaped found => ?_
  obtain ⟨t, width, common, ty, shared, u, member, rfl⟩ := found
  have same : u.ty = v.ty := by
    rcases List.mem_cons.mp member with rfl | rest
    · rfl
    · rw [List.mem_singleton.mp rest]
      rcases shared.each v (by simp) with vector | scalar'
      · rw [vector.2, List.mem_singleton.mp rest]
      · rw [scalar'.2, scalar.2]
  have shape : u.ty.shape? = some (op.resultKind k, width) := by rw [keeps, shared.shape]
  rw [common]
  dsimp only
  rw [ty, if_pos keeps, pure_bind, ← same]
  exact mapTo supports shared arity.symm shared.valid shape target

end Safe
end Ember
