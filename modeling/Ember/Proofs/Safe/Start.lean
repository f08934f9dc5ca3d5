import Ember.Prelude
import Ember.Proofs.Safe.Item

/-!
# The prelude, safely

What a program starts from is over the structs of the prelude.
-/

set_option autoImplicit false

namespace Ember

/-- No two structs are of one group. -/
def Known.Lone (K : Known) : Prop := ∀ s t, K s → K t → s.uid ≠ t.uid → s.group ≠ t.group

structure Known.Ready (K : Known) (ids : Ids) : Prop where
  closed : K.Closed
  below : K.Below ids.next
  lone : K.Lone

/-- Structs are declared one at a time, and the set of them grows. -/
def Declares {α : Type} (K : Known) (act : Numbering α) (Q : Known → α → Prop) : Prop :=
  ∀ ids, K.Ready ids →
    Ends act ids (fun a ids' => ∃ L, K.Sub L ∧ L.Ready ids' ∧ Q L a) fun _ _ => True

namespace Declares

variable {α β : Type} {K : Known}

theorem pure {a : α} {Q : Known → α → Prop} (h : Q K a) : Declares K (pure a) Q :=
  fun _ ready => Ends.pure ⟨K, .refl K, ready, h⟩

theorem bind {act : Numbering α} {next : α → Numbering β} {Q : Known → α → Prop}
    {Q' : Known → β → Prop} (h : Declares K act Q)
    (then_ : ∀ L, K.Sub L → ∀ a, Q L a → Declares L (next a) Q') :
    Declares K (act >>= next) Q' := by
  intro ids ready
  refine Ends.bind ((h ids ready).mono ?_ fun _ _ => id)
  rintro a ids' ⟨L, sub, ready', holds⟩
  refine (then_ L sub a holds ids' ready').mono ?_ fun _ _ => id
  rintro b ids'' ⟨M, sub', ready'', holds'⟩
  exact ⟨M, sub.trans sub', ready'', holds'⟩

theorem mapM {f : α → Numbering β} {xs : List α} {R : Known → α → β → Prop}
    (grow : ∀ K L, K.Sub L → ∀ a b, R K a b → R L a b)
    (h : ∀ L, K.Sub L → ∀ a ∈ xs, Declares L (f a) fun M b => R M a b) :
    Declares K (xs.mapM f) fun L ys => List.Forall₂ (R L) xs ys := by
  induction xs generalizing K with
  | nil => exact pure .nil
  | cons a as ih =>
    rw [List.mapM_cons]
    refine bind (h K (.refl K) a (by simp)) fun L sub b hb => ?_
    refine bind (ih fun M sub' c hc => h M (sub.trans sub') c (by simp [hc]))
      fun M sub' bs hbs => ?_
    exact pure (.cons (grow L M sub' a b hb) hbs)

theorem declare {v : Variant} {matrix : Bool} (valid : ∀ f ∈ v.fields, f.ty.Over K) :
    Declares K (Struct.declare v matrix)
      fun L s => L s ∧ s.name = v.name ∧ s.fields = v.fields ∧ s.matrix = matrix := by
  intro ids ready
  refine (Struct.declare_ends ready.closed matrix v valid ids).mono ?_ fun _ _ _ => trivial
  intro s ids' declared
  obtain ⟨_, news, _⟩ := id declared
  have new : s.name = v.name ∧ s.fields = v.fields ∧ s.matrix = matrix := by
    cases news with
    | cons h _ => exact ⟨h.name_eq, h.fields_eq, h.matrix_eq⟩
  refine ⟨K.add [s], K.subset_add [s], ⟨ready.closed.add ready.below declared,
    ready.below.add declared, fun a b knownA knownB differ same => ?_⟩, .inr (by simp), new⟩
  obtain ⟨ha, hb⟩ := Known.alone ready.below declared knownA knownB differ same
  exact ready.lone a b ha hb differ same

end Declares

namespace Prelude

variable {K : Known}

/-! ## Functions -/

theorem paramsOf_ty {count : Nat} (small : count ≤ 3) (ty : ParamTy) :
    (paramsOf count ty).map Param.ty = List.replicate count ty := by
  match count with
  | 0 | 1 | 2 | 3 => rfl
  | _ + 4 => omega

theorem mapFn_over {op : ScalarOp} {k : ScalarKind} (supports : op.Supports k) (name : String) :
    (mapFn name op k).Over K := by
  have params : (mapFn name op k).params.map Param.ty = List.replicate op.arity (.vector k) :=
    paramsOf_ty op.arity_le_three _
  rw [Function.Over, params]
  exact .map supports (List.length_replicate ..) fun p member => .inl (List.eq_of_mem_replicate member)

theorem scalarFn_over {op : ScalarOp} {k : ScalarKind} (supports : op.Supports k) (name : String) :
    (scalarFn name op k).Over K := by
  have params : (scalarFn name op k).params.map Param.ty =
      List.replicate op.arity (.exact (.scalar k)) := paramsOf_ty op.arity_le_three _
  rw [Function.Over, params]
  exact .map supports (List.length_replicate ..) fun p member => .inr (List.eq_of_mem_replicate member)

theorem reduceFn_over {r : Reduction} {k : ScalarKind} (supports : r.Supports k) (name : String) :
    (reduceFn name r k r.arity).Over K := by
  have small : r.arity ≤ 3 := by cases r <;> decide
  have params : (reduceFn name r k r.arity).params.map Param.ty =
      List.replicate r.arity (.vector k) := paramsOf_ty small _
  rw [Function.Over, params]
  exact .reduce supports

theorem castFn_over {source goal : ScalarKind} (hs : source.IsNumber) (hg : goal.IsNumber)
    (name : String) : (castFn name source goal).Over K := .cast hs hg

def numberOps : List ScalarOp :=
  [.add, .sub, .mul, .div, .rem, .neg, .min, .max, .clamp, .abs, .lt, .gt, .le, .ge]

theorem supports_number {op : ScalarOp} (defined : op ∈ numberOps) {k : ScalarKind}
    (number : k ∈ numeric) : op.Supports k := by
  simp only [numeric, List.mem_cons, List.not_mem_nil, or_false] at number
  rcases number with rfl | rfl
  · exact ScalarOp.supports_float (by revert op; decide)
  · exact ScalarOp.supports_int (by revert op; decide)

theorem mapFns_over {op : ScalarOp} (defined : op ∈ numberOps) (name : String) :
    ∀ k ∈ numeric, (mapFn name op k).Over K :=
  fun _ number => mapFn_over (supports_number defined number) name

theorem scalarFns_over {op : ScalarOp} (defined : op ∈ numberOps) (name : String) :
    ∀ k ∈ numeric, (scalarFn name op k).Over K :=
  fun _ number => scalarFn_over (supports_number defined number) name

theorem operators_over : ∀ p ∈ operators, p.2.Over K := by
  unfold operators
  simp only [List.forall_mem_append, List.forall_mem_map, List.forall_mem_cons,
    List.forall_mem_flatMap, List.not_mem_nil, false_implies, implies_true, and_true, and_assoc]
  refine ⟨mapFns_over ?_ _, mapFns_over ?_ _, mapFns_over ?_ _, mapFns_over ?_ _, mapFns_over ?_ _,
    mapFns_over ?_ _, mapFn_over (ScalarOp.supports_int ?_) _,
    mapFn_over (ScalarOp.supports_int ?_) _, mapFn_over (ScalarOp.supports_float ?_) _,
    scalarFns_over ?_ _, scalarFns_over ?_ _, scalarFns_over ?_ _, scalarFns_over ?_ _,
    scalarFn_over (ScalarOp.supports_bool ?_) _, scalarFn_over (ScalarOp.supports_bool ?_) _,
    scalarFn_over (ScalarOp.supports_bool ?_) _,
    fun k _ => ⟨reduceFn_over (r := .eq) trivial _, reduceFn_over (r := .ne) trivial _⟩,
    reduceFn_over (r := .approx) rfl _, .count⟩
  all_goals decide

theorem library_over : ∀ p ∈ library, p.2.Over K := by
  have float {op : ScalarOp} (defined : op ∉ [ScalarOp.bitAnd, .bitOr, .and, .or, .not])
      (name : String) : (mapFn name op .float).Over K :=
    mapFn_over (ScalarOp.supports_float defined) name
  unfold library
  simp only [List.forall_mem_append, List.forall_mem_map, List.forall_mem_cons, List.not_mem_nil,
    false_implies, implies_true, and_true, and_assoc]
  refine ⟨mapFns_over ?_ _, mapFns_over ?_ _, mapFns_over ?_ _, mapFns_over ?_ _, float ?_ _,
    float ?_ _, float ?_ _, float ?_ _, float ?_ _, float ?_ _, float ?_ _, float ?_ _,
    reduceFn_over (r := .dot) rfl _, reduceFn_over (r := .length) rfl _, .normalize,
    castFn_over (.inr rfl) (.inl rfl) _, castFn_over (.inl rfl) (.inl rfl) _,
    castFn_over (.inl rfl) (.inr rfl) _, castFn_over (.inr rfl) (.inr rfl) _⟩
  all_goals decide

/-! ## Vectors and matrices -/

theorem shape?_vector {s : Struct} {k : ScalarKind} {w : Nat} (listed : (k, w) ∈ vectorShapes)
    (fields : s.fields = (["x", "y", "z", "w"].take w).map fun c => ⟨c, .scalar k⟩)
    (plain : s.matrix = false) : (Ty.struct s).shape? = some (k, w) := by
  obtain ⟨uid, group, name, fs, matrix, js, glsl⟩ := s
  simp only at fields plain
  subst fields plain
  have narrow : w = 2 ∨ w = 3 ∨ w = 4 := by
    simp only [vectorShapes, List.mem_flatMap, List.mem_map, List.mem_cons, List.not_mem_nil,
      or_false, Prod.mk.injEq] at listed
    obtain ⟨_, _, _, width, _, rfl⟩ := listed
    exact width
  rw [Ty.shape?, Struct.shape?]
  rcases narrow with rfl | rfl | rfl
  all_goals simp [Ty.fieldsShape, Ty.joinShapes, Ty.isVoid, Ty.shape?]

structure IsVector (K : Known) (shape : ScalarKind × Nat) (v : (ScalarKind × Nat) × Struct) :
    Prop where
  listed : shape ∈ vectorShapes
  key : v.1 = shape
  known : K v.2
  name : v.2.name = shape.1.vectorName shape.2
  shaped : (Ty.struct v.2).shape? = some shape

theorem declareVector_declares {shape : ScalarKind × Nat} (listed : shape ∈ vectorShapes) :
    Declares K (do return (shape, ← declareVector shape)) fun L v => IsVector L shape v := by
  have components : ∀ f ∈ (["x", "y", "z", "w"].take shape.2).map
      fun c => (⟨c, .scalar shape.1⟩ : Field), f.ty.Over K := by
    intro f member
    obtain ⟨c, _, rfl⟩ := List.mem_map.mp member
    trivial
  refine .bind (.declare components) fun L _ s new => .pure ?_
  obtain ⟨known, name, fields, plain⟩ := new
  exact ⟨listed, rfl, known, name, shape?_vector listed fields plain⟩

structure IsMatrix (K : Known) (v : (ScalarKind × Nat) × Struct) (m : Nat × Ty × Struct) :
    Prop where
  column : m.2.1 = .struct v.2
  known : K m.2.2
  square : m.2.2.matrix = true
  name : m.2.2.name = "mat" ++ toString v.1.2
  columns : ∀ f ∈ m.2.2.fields, f.ty = m.2.1

theorem declareMatrix_declares {shape : ScalarKind × Nat} {s : Struct} (known : K s) :
    Declares K (do return (shape.2, Ty.struct s, ← declareMatrix shape.2 (.struct s)))
      fun L m => IsMatrix L (shape, s) m := by
  have columns : ∀ f ∈ (["c0", "c1", "c2", "c3"].take shape.2).map
      fun c => (⟨c, .struct s⟩ : Field), f.ty.Over K := by
    intro f member
    obtain ⟨c, _, rfl⟩ := List.mem_map.mp member
    exact known
  refine .bind (.declare columns) fun L _ m new => .pure ?_
  obtain ⟨known, name, fields, square⟩ := new
  refine ⟨rfl, known, square, name, fun f member => ?_⟩
  rw [fields] at member
  obtain ⟨c, _, rfl⟩ := List.mem_map.mp member
  rfl

theorem vectorFns_over {shape : ScalarKind × Nat} {v : (ScalarKind × Nat) × Struct}
    (vector : IsVector K shape v) : ∀ p ∈ vectorFns v.1 v.2, p.2.Over K := by
  obtain ⟨shape', s⟩ := v
  obtain ⟨_, rfl, known, _, shaped⟩ := vector
  simp only [vectorFns, List.forall_mem_cons, List.not_mem_nil, false_implies, implies_true,
    and_true]
  exact ⟨Function.constructor_over known, .splat known shaped⟩

theorem matrixFns_over {v : (ScalarKind × Nat) × Struct} {m : Nat × Ty × Struct} {w : Nat}
    (matrix : IsMatrix K v m) (column : IsVector K (.float, w) v) :
    ∀ p ∈ matrixFns m.2.2 m.2.1, p.2.Over K := by
  obtain ⟨size, _, s⟩ := m
  obtain ⟨rfl, known, square, _, _⟩ := matrix
  simp only [matrixFns, List.forall_mem_cons, List.not_mem_nil, false_implies, implies_true,
    and_true]
  exact ⟨Function.constructor_over known, .matrixProduct known square column.known column.shaped⟩

theorem IsVector.mono {L : Known} (sub : K.Sub L) {shape : ScalarKind × Nat}
    {v : (ScalarKind × Nat) × Struct} (h : IsVector K shape v) : IsVector L shape v :=
  { h with known := sub _ h.known }

theorem IsMatrix.mono {L : Known} (sub : K.Sub L) {v : (ScalarKind × Nat) × Struct}
    {m : Nat × Ty × Struct} (h : IsMatrix K v m) : IsMatrix L v m :=
  { h with known := sub _ h.known }

theorem operators_usual : ∀ f ∈ operators, f.2.behaviour ≠ .matrixProduct ∧
    (f.1 = "_and" → f.2 = scalarFn "&&" .and .bool) := by
  simp [operators, mapFn, scalarFn, reduceFn, numeric, ScalarKind.all]

theorem library_usual : ∀ f ∈ library, f.2.behaviour ≠ .matrixProduct ∧ f.1 ≠ "_and" := by
  simp [library, mapFn, reduceFn, castFn, numeric]

theorem vectorFns_usual {shape : ScalarKind × Nat} {v : (ScalarKind × Nat) × Struct}
    (vector : IsVector K shape v) :
    ∀ f ∈ vectorFns v.1 v.2, f.2.behaviour ≠ .matrixProduct ∧ f.1 ≠ "_and" := by
  have name : v.2.name ≠ "_and" := by
    rw [vector.name]
    have each : ∀ shape ∈ vectorShapes, shape.1.vectorName shape.2 ≠ "_and" := by decide
    exact each shape vector.listed
  simp [vectorFns, Function.constructor, splat, name]

/-- The builtin vector of a shape is the one declared for it. -/
theorem lookup_vector {vectors : List ((ScalarKind × Nat) × Struct)}
    (keys : vectors.map (·.1) = vectorShapes) {v : (ScalarKind × Nat) × Struct}
    (member : v ∈ vectors) :
    (vectors.map fun (shape, s) => (shape, Ty.struct s)).lookup v.1 = some (.struct v.2) := by
  have distinct : (vectors.map (·.1)).Nodup := by
    rw [keys]
    decide
  clear keys
  induction vectors with
  | nil => simp at member
  | cons u vectors ih =>
    simp only [List.map_cons, List.nodup_cons, List.mem_map, not_exists, not_and] at distinct
    rcases List.mem_cons.mp member with rfl | later
    · simp
    · have differ : (v.1 == u.1) = false := by
        simpa using distinct.1 v later
      rw [List.map_cons, List.lookup_cons, differ]
      exact ih later distinct.2

theorem build_declares :
    Declares K build fun L p => p.1.Over L ∧ p.2.Over L ∧ Usual p.1 p.2 := by
  unfold build
  refine .bind (.declare (by simp)) fun K₁ _ void unit => ?_
  refine .bind (.mapM (R := IsVector) (fun _ _ sub _ _ h => h.mono sub) fun L _ shape listed =>
    declareVector_declares listed) fun K₂ sub₂ vectors isVector => ?_
  have keys : vectors.map (·.1) = vectorShapes := by
    have related : List.Forall₂ Eq vectorShapes (vectors.map (·.1)) :=
      List.forall₂_map_right_iff.mpr (isVector.imp fun _ _ h => h.key.symm)
    rw [List.forall₂_eq_eq_eq] at related
    exact related.symm
  have vector (v) (member : v ∈ vectors) : IsVector K₂ v.1 v := by
    obtain ⟨shape, _, h⟩ := exists_left_of_forall₂ isVector member
    exact h.key ▸ h
  refine .bind (.mapM (R := IsMatrix) (fun _ _ sub _ _ h => h.mono sub) fun L sub v member =>
    declareMatrix_declares (sub _ (vector v (List.mem_filter.mp member).1).known))
    fun K₃ sub₃ matrices isMatrix => ?_
  have vector (v) (member : v ∈ vectors) : IsVector K₃ v.1 v := (vector v member).mono sub₃
  have column (m) (member : m ∈ matrices) :
      ∃ v ∈ vectors, IsMatrix K₃ v m ∧ IsVector K₃ (.float, v.1.2) v := by
    obtain ⟨v, inFloats, h⟩ := exists_left_of_forall₂ isMatrix member
    obtain ⟨inVectors, float⟩ := List.mem_filter.mp inFloats
    have own := vector v inVectors
    rw [show v.1 = (.float, v.1.2) from Prod.ext (eq_of_beq float) rfl] at own
    exact ⟨v, inVectors, h, own⟩
  have void_known := sub₃ _ (sub₂ _ unit.1)
  refine .pure ⟨⟨?_, ?_, by simp, by simp, by simp, by simp⟩,
    ⟨⟨void, rfl, void_known, unit.2.2.1⟩, ?_⟩, ?_, ?_⟩
  · simp only [List.forall_mem_append, List.forall_mem_map, List.forall_mem_cons]
    refine ⟨fun _ _ => trivial, ⟨void_known, fun v member => (vector v member).known⟩, ?_⟩
    intro m member
    obtain ⟨v, _, h⟩ := exists_left_of_forall₂ isMatrix member
    exact h.known
  · simp only [List.forall_mem_append, List.forall_mem_flatMap]
    refine ⟨⟨⟨fun v member => vectorFns_over (vector v member), ?_⟩, operators_over⟩, library_over⟩
    intro m member
    obtain ⟨v, _, h, own⟩ := column m member
    exact matrixFns_over h own
  · simp only [List.forall_mem_map]
    exact fun v member => ⟨(vector v member).known, (vector v member).shaped⟩
  · simp only [List.forall_mem_append, List.forall_mem_flatMap]
    refine ⟨⟨⟨fun v member f found same => ?_, fun m member f found same => ?_⟩,
      fun f found same => ?_⟩, fun f found same => ?_⟩
    · exact absurd same (vectorFns_usual (vector v member) f found).1
    · obtain ⟨v, inVectors, h, own⟩ := column m member
      have product : f = ("_mul", matrixProduct (.struct m.2.2) m.2.1) := by
        rcases List.mem_cons.mp found with rfl | rest
        · cases same
        · exact List.mem_singleton.mp rest
      have wide : v.1.2 ≠ 1 := by
        have each : ∀ shape ∈ vectorShapes, shape.2 ≠ 1 := by decide
        exact each (.float, v.1.2) own.listed
      rw [product]
      refine ⟨m.2.2, m.2.1, v.1.2, rfl, h.columns, by rw [h.column, own.shaped], ?_⟩
      rw [Builtins.vector, if_neg wide]
      have found := lookup_vector keys inVectors
      rw [own.key] at found
      rw [found, h.column]
    · exact absurd same (operators_usual f found).1
    · exact absurd same (library_usual f found).1
  · simp only [List.forall_mem_append, List.forall_mem_flatMap]
    refine ⟨⟨⟨fun v member f found same => ?_, fun m member f found same => ?_⟩,
      fun f found => (operators_usual f found).2⟩, fun f found same => ?_⟩
    · exact absurd same (vectorFns_usual (vector v member) f found).2
    · obtain ⟨v, _, h, own⟩ := column m member
      have name : m.2.2.name ≠ "_and" := by
        rw [h.name]
        have each : ∀ shape ∈ vectorShapes, "mat" ++ toString shape.2 ≠ "_and" := by decide
        exact each (.float, v.1.2) own.listed
      rcases List.mem_cons.mp found with rfl | rest
      · exact absurd same name
      · rw [List.mem_singleton.mp rest] at same
        simp at same
    · exact absurd same (library_usual f found).2

end Prelude

theorem Program.exists_start : ∃ p, Program.start = .ok p := by
  have started : Program.start.toBool = true := by decide +kernel
  cases run : Program.start with
  | ok p => exact ⟨p, rfl⟩
  | error f => simp [run, Except.toBool] at started

theorem Program.start_over {p : Program} (start : Program.start = .ok p) : ∃ K, p.Over K := by
  have ready : Known.Ready (fun _ => False) {} :=
    ⟨⟨by simp, by simp, by simp, by simp⟩, by simp [Known.Below], by simp [Known.Lone]⟩
  have ends := Prelude.build_declares {} ready
  unfold Program.start at start
  cases run : Prelude.build {} with
  | error f ids => simp [run] at start
  | ok found ids =>
    rw [run] at start
    cases start
    obtain ⟨K, _, ready, scope, builtins, usual⟩ := ends.ok run
    have none : Scope.Over K {} := ⟨by simp, by simp, by simp, by simp, by simp, by simp⟩
    exact ⟨K, ready.closed, ready.below, none, scope, builtins, by simp,
      fun s t hs ht differ same => absurd same (ready.lone s t hs ht differ), by simp, usual⟩

end Ember
