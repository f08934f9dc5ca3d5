import Mathlib
import Ember.ScalarOp

/-!
# On which kinds the operations have values

An operation supports a kind if it has a value on as many operands of the kind as it takes, division
by zero apart.
-/

set_option autoImplicit false

namespace Ember

namespace ScalarOp

theorem arity_pos (op : ScalarOp) : 0 < op.arity := by
  cases op <;> decide

theorem arity_le_three (op : ScalarOp) : op.arity ≤ 3 := by
  cases op <;> decide

def Supports (op : ScalarOp) (k : ScalarKind) : Prop :=
  ∀ xs : List Scalar, xs.length = op.arity → (∀ x ∈ xs, x.kind = k) →
    op.byZero xs = false → ∃ y, op.value? xs = some y ∧ y.kind = op.resultKind k

/-- An operation supports a kind if it has values on what scalars of the kind hold. -/
theorem supports_of {α : Type} {op : ScalarOp} {k : ScalarKind} (make : α → Scalar)
    (read : Scalar → Option α) (value : List α → Option Scalar)
    (read_make : ∀ a, read (make a) = some a) (all_made : ∀ x : Scalar, x.kind = k → ∃ a, x = make a)
    (unfolds : ∀ a xs, op.value? (make a :: xs) = ((make a :: xs).mapM read).bind value)
    (defined : ∀ as : List α, as.length = op.arity →
      ∃ y, value as = some y ∧ y.kind = op.resultKind k) : op.Supports k := by
  intro xs arity kinds nonzero
  have held : ∃ as, xs = as.map make ∧ xs.mapM read = some as := by
    clear arity nonzero
    induction xs with
    | nil => exact ⟨[], rfl, rfl⟩
    | cons x xs ih =>
      obtain ⟨as, rfl, run⟩ := ih fun y member => kinds y (by simp [member])
      obtain ⟨a, rfl⟩ := all_made x (kinds x (by simp))
      exact ⟨a :: as, rfl, by simp [List.mapM_cons, read_make, run]⟩
  obtain ⟨as, rfl, run⟩ := held
  rw [List.length_map] at arity
  cases as with
  | nil =>
    have positive := op.arity_pos
    simp at arity
    omega
  | cons a as =>
    rw [List.map_cons] at run ⊢
    rw [unfolds, run]
    exact defined (a :: as) arity

/-- Operations take one to three operands. -/
theorem operands_cases {α : Type} {op : ScalarOp} (as : List α) (arity : as.length = op.arity) :
    (op.arity = 1 ∧ ∃ a, as = [a]) ∨ (op.arity = 2 ∧ ∃ a b, as = [a, b]) ∨
      (op.arity = 3 ∧ ∃ a b c, as = [a, b, c]) := by
  match as, arity with
  | [], h => exact absurd h op.arity_pos.ne
  | [a], h => exact .inl ⟨h.symm, a, rfl⟩
  | [a, b], h => exact .inr (.inl ⟨h.symm, a, b, rfl⟩)
  | [a, b, c], h => exact .inr (.inr ⟨h.symm, a, b, c, rfl⟩)
  | _ :: _ :: _ :: _ :: _, h =>
    have small := op.arity_le_three
    simp only [List.length_cons] at h
    omega

theorem supports_float {op : ScalarOp}
    (defined : op ∉ [ScalarOp.bitAnd, .bitOr, .and, .or, .not]) : op.Supports .float := by
  refine supports_of Scalar.float Scalar.float? op.ofFloats? (fun _ => rfl)
    (by rintro (v | v | v) h <;> simp_all [Scalar.kind]) (fun _ _ => rfl) fun vs arity => ?_
  rcases operands_cases vs arity with ⟨count, a, rfl⟩ | ⟨count, a, b, rfl⟩ | ⟨count, a, b, c, rfl⟩
  all_goals cases op <;> simp_all [ScalarOp.arity, ofFloats?, resultKind, Scalar.kind]

theorem supports_int {op : ScalarOp}
    (defined : op ∈ [ScalarOp.add, .sub, .mul, .div, .rem, .neg, .min, .max, .clamp, .abs, .bitAnd,
      .bitOr, .lt, .gt, .le, .ge]) : op.Supports .int := by
  refine supports_of Scalar.int Scalar.int? op.ofInts? (fun _ => rfl)
    (by rintro (v | v | v) h <;> simp_all [Scalar.kind]) (fun _ _ => rfl) fun vs arity => ?_
  rcases operands_cases vs arity with ⟨count, a, rfl⟩ | ⟨count, a, b, rfl⟩ | ⟨count, a, b, c, rfl⟩
  all_goals cases op <;> simp_all [ScalarOp.arity, ofInts?, resultKind, Scalar.kind]

theorem supports_bool {op : ScalarOp} (defined : op ∈ [ScalarOp.and, .or, .not]) :
    op.Supports .bool := by
  refine supports_of Scalar.bool Scalar.bool? op.ofBools? (fun _ => rfl)
    (by rintro (v | v | v) h <;> simp_all [Scalar.kind]) (fun _ _ => rfl) fun vs arity => ?_
  rcases operands_cases vs arity with ⟨count, a, rfl⟩ | ⟨count, a, b, rfl⟩ | ⟨count, a, b, c, rfl⟩
  all_goals cases op <;> simp_all [ScalarOp.arity, ofBools?, resultKind, Scalar.kind]

end ScalarOp
end Ember
