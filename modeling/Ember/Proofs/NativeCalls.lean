import Ember.Emit.Broadcast
import Ember.Proofs.Ends
import Ember.Ty.Declare

/-!
# Calls of GLSL for operations on whole vectors

GLSL has forms of some functions that take scalars beside vectors, but only in certain places.
Operands of these functions are passed as they are. So a call is one that GLSL has if and only if the
scalars among the arguments stand in the places of such a form.
-/

set_option autoImplicit false

namespace Ember

/-- Which operands are scalars in the form that GLSL has for scalars beside vectors. -/
def ScalarOp.mixedForm? : ScalarOp → Option (List Bool)
  | .rem | .min | .max => some [false, true]
  | .clamp => some [false, true, true]
  | .mix => some [false, false, true]
  | _ => none

def ScalarOp.hasForm (op : ScalarOp) (scalars : List Bool) : Bool :=
  scalars.all (!·) || op.mixedForm? == some scalars

namespace Emit

/-- An operand of a call on vectors of a type, and whether it is a scalar: an argument, or the vector
that is made of it. -/
inductive IsOperand (ty : Ty) (v : Value) : Code × Bool → Prop
  | own {c : Code} (code : v.toCode .glsl = .ok c) : IsOperand ty v (c, v.ty.isScalar)
  | widened {c : Code} (code : v.toCode .glsl = .ok c) :
      IsOperand ty v (.call ty.glslName [c], false)

/-- A call that GLSL has, on operands for the arguments. -/
def Native (op : ScalarOp) (args : List Value) (v : Value) : Prop :=
  ∃ operands : List (Code × Bool), v.payload = .code (.call op.fnName (operands.map (·.1))) ∧
    List.Forall₂ (IsOperand v.ty) args operands ∧ op.hasForm (operands.map (·.2)) = true

variable {op : ScalarOp} {args : List Value} {v : Value} {s s' : Emission} {k : ScalarKind} {w : Nat}

theorem mixesScalars_of_mixedForm (mixed : op.mixedForm?.isSome = true) :
    op.mixesScalars = true := by
  cases op <;> first | rfl | cases mixed

theorem glslCode_of_mixedForm (mixed : op.mixedForm?.isSome = true) (float : op = .rem → k = .float)
    (codes : List Code) : op.glslCode k codes = .call op.fnName codes := by
  cases op with
  | rem => rw [float rfl]; rfl
  | min | max | clamp | mix => rfl
  | _ => cases mixed

theorem resultKind_of_mixedForm (mixed : op.mixedForm?.isSome = true) : op.resultKind k = k := by
  cases op <;> first | rfl | cases mixed

theorem wholeOperand_eq (mixed : op.mixedForm?.isSome = true) (ty : Ty) (width : Nat) (v : Value) :
    wholeOperand op ty width v = v.toCode .glsl := by
  unfold wholeOperand
  cases v.toCode .glsl with
  | error f => rfl
  | ok c => simp [mixesScalars_of_mixedForm mixed, bind, Except.bind, pure, Except.pure]

theorem any_end {σ α : Type} {good : α → σ → Prop} (act : EStateM Failure σ α) (s : σ)
    (all : ∀ a t, good a t) : Ends act s good fun _ _ => True := by
  unfold Ends
  cases act s with
  | ok a t => exact all a t
  | error f t => trivial

/-- The arguments are passed as they are. -/
theorem mapTo_passes (mixed : op.mixedForm?.isSome = true)
    (runtime : args.all Value.isConst = false) (inTy outTy : Ty) (s : Emission) :
    Ends (mapTo .glsl op k w inTy outTy args) s
      (fun v _ => v.ty = outTy ∧ ∃ codes, v.payload = .code (op.glslCode k codes) ∧
        List.Forall₂ (fun a c => a.toCode .glsl = .ok c) args codes) (fun _ _ => True) := by
  unfold mapTo
  refine Ends.bind (any_end _ s fun _ t => ?_)
  rw [if_pos (by simp [runtime])]
  refine Ends.bind (Ends.mono (Ends.mapM_still (R := fun a c => a.toCode .glsl = .ok c)
    (B := fun _ => True) fun a _ => ?_) ?_ fun _ _ _ => trivial)
  · rw [wholeOperand_eq mixed]
    refine Ends.lift ?_
    cases a.toCode .glsl with
    | ok c => exact ⟨rfl, rfl⟩
    | error f => exact ⟨rfl, trivial⟩
  · rintro codes _ ⟨rfl, passed⟩
    exact Ends.pure ⟨rfl, codes, rfl, passed⟩

/-- A vector is computed by a call on the arguments. -/
theorem mapOp_passes (mixed : op.mixedForm?.isSome = true) (runtime : args.all Value.isConst = false)
    (run : mapOp .glsl op args s = .ok v s') (shape : v.ty.shape? = some (k, w))
    (float : op = .rem → k = .float) : ∃ codes, v.payload = .code (.call op.fnName codes) ∧
      List.Forall₂ (fun a c => a.toCode .glsl = .ok c) args codes := by
  have ends : Ends (mapOp .glsl op args) s (fun v _ => v.ty.shape? = some (k, w) →
      ∃ codes, v.payload = .code (.call op.fnName codes) ∧
        List.Forall₂ (fun a c => a.toCode .glsl = .ok c) args codes) (fun _ _ => True) := by
    unfold mapOp
    refine Ends.bind (any_end _ s fun shaped t => ?_)
    split
    · trivial
    · rename_i kind width common
      dsimp only
      rw [resultKind_of_mixedForm mixed, if_pos rfl, pure_bind]
      refine (mapTo_passes mixed runtime _ _ t).mono ?_ fun _ _ => id
      rintro v _ ⟨ty, codes, code, passed⟩ shape
      rw [ty] at shape
      obtain rfl : kind = k := by
        cases shaped with
        | none =>
          -- the result would be a scalar
          simp only [Option.getD_none, Ty.shape?, Option.some.injEq, Prod.mk.injEq] at shape
          exact shape.1
        | some own =>
          cases common.symm.trans shape
          rfl
      exact ⟨codes, by rw [code, glslCode_of_mixedForm mixed float], passed⟩
  exact ends.ok run shape

theorem isOperand_of_code {ty : Ty} {a : Value} {c : Code} {scalar : Bool}
    (code : a.toCode .glsl = .ok c) (operand : IsOperand ty a (c, scalar)) :
    scalar = a.ty.isScalar := by
  cases operand with
  | own => rfl
  | widened inner =>
    have size := congrArg sizeOf (Except.ok.inj (code.symm.trans inner))
    simp only [Code.call.sizeOf_spec, List.cons.sizeOf_spec] at size
    omega

/-- Operands are scalars exactly if the arguments are. -/
theorem scalars_of_operands {ty : Ty} {operands : List (Code × Bool)}
    (each : List.Forall₂ (IsOperand ty) args operands)
    (passed : List.Forall₂ (fun a c => a.toCode .glsl = .ok c) args (operands.map (·.1))) :
    operands.map (·.2) = args.map (·.ty.isScalar) := by
  induction each with
  | nil => rfl
  | cons operand _ ih =>
    cases passed with
    | cons code passed =>
      rw [List.map_cons, List.map_cons, isOperand_of_code code operand, ih passed]

theorem exists_operands_of_passes {codes : List Code} (ty : Ty)
    (passed : List.Forall₂ (fun a c => a.toCode .glsl = .ok c) args codes) :
    ∃ operands : List (Code × Bool), operands.map (·.1) = codes ∧
      List.Forall₂ (IsOperand ty) args operands := by
  induction passed with
  | nil => exact ⟨[], rfl, .nil⟩
  | @cons a c _ _ code _ ih =>
    obtain ⟨operands, rfl, each⟩ := ih
    exact ⟨(c, a.ty.isScalar) :: operands, rfl, .cons (.own code) each⟩

theorem native_iff_of_passes {codes : List Code} (call : v.payload = .code (.call op.fnName codes))
    (passed : List.Forall₂ (fun a c => a.toCode .glsl = .ok c) args codes) :
    Native op args v ↔ op.hasForm (args.map (·.ty.isScalar)) = true := by
  constructor
  · rintro ⟨operands, call', each, form⟩
    obtain rfl : codes = operands.map (·.1) := by
      rw [call] at call'
      simpa using call'
    rwa [scalars_of_operands each passed] at form
  · intro form
    obtain ⟨operands, rfl, each⟩ := exists_operands_of_passes v.ty passed
    exact ⟨operands, call, each, by rwa [scalars_of_operands each passed]⟩

/-- A call on vectors is one that GLSL has if and only if it has a form with scalars in the places
where the arguments are scalars. -/
theorem mapOp_native_iff {op : ScalarOp} {args : List Value} {v : Value} {s s' : Emission}
    (mixed : op.mixedForm?.isSome = true) (run : mapOp .glsl op args s = .ok v s')
    (runtime : args.all Value.isConst = false) {k : ScalarKind} {w : Nat}
    (shape : v.ty.shape? = some (k, w)) (float : op = .rem → k = .float) :
    Native op args v ↔ op.hasForm (args.map (·.ty.isScalar)) = true := by
  obtain ⟨codes, call, passed⟩ := mapOp_passes mixed runtime run shape float
  exact native_iff_of_passes call passed

/-- The lesser of the components of a vector and a number, which stands where GLSL takes one. -/
theorem mapOp_native_second : ∃ (t : Ty) (v : Value), t.shape? = some (.float, 2) ∧
    mapOp .glsl .min [.code (.name "v") t, .code (.name "x") .f32] default = .ok v default ∧
    Native .min [.code (.name "v") t, .code (.name "x") .f32] v := by
  obtain ⟨s, v, _, shape, run, ty, form⟩ : ∃ (s : Struct) (v : Value),
      Struct.declareGroup [⟨"p", [⟨"x", .f32⟩, ⟨"y", .f32⟩]⟩] false ⟨1⟩ = .ok [s] ⟨3⟩ ∧
      (Ty.struct s).shape? = some (.float, 2) ∧
      mapOp .glsl .min [.code (.name "v") (.struct s), .code (.name "x") .f32] default =
        .ok v default ∧ v.ty = .struct s ∧
      ScalarOp.hasForm .min ([Value.code (.name "v") (.struct s), .code (.name "x") .f32].map
        (·.ty.isScalar)) = true := ⟨_, _, rfl, rfl, rfl, rfl, rfl⟩
  exact ⟨.struct s, v, shape, run, (mapOp_native_iff rfl run rfl (ty ▸ shape) nofun).mpr form⟩

/-- With the number before the vector, the call is none that GLSL has. -/
theorem exists_mapOp_not_native : ∃ (t : Ty) (v : Value), t.shape? = some (.float, 2) ∧
    mapOp .glsl .min [.code (.name "x") .f32, .code (.name "v") t] default = .ok v default ∧
    v.ty = t ∧ ¬ Native .min [.code (.name "x") .f32, .code (.name "v") t] v := by
  obtain ⟨s, v, _, shape, run, ty, form⟩ : ∃ (s : Struct) (v : Value),
      Struct.declareGroup [⟨"p", [⟨"x", .f32⟩, ⟨"y", .f32⟩]⟩] false ⟨1⟩ = .ok [s] ⟨3⟩ ∧
      (Ty.struct s).shape? = some (.float, 2) ∧
      mapOp .glsl .min [.code (.name "x") .f32, .code (.name "v") (.struct s)] default =
        .ok v default ∧ v.ty = .struct s ∧
      ScalarOp.hasForm .min ([Value.code (.name "x") .f32, .code (.name "v") (.struct s)].map
        (·.ty.isScalar)) = false := ⟨_, _, rfl, rfl, rfl, rfl, rfl⟩
  obtain ⟨codes, call, passed⟩ := mapOp_passes rfl rfl run (ty ▸ shape) nofun
  refine ⟨.struct s, v, shape, run, ty, fun native => ?_⟩
  cases form.symm.trans ((native_iff_of_passes call passed).mp native)

end Emit

end Ember
