import Ember.Proofs.Layout
import Ember.Ty.Declare

/-!
# Types over the structs of a program

The structs that a program speaks of are a set in which a number tells a struct apart, every struct
has the layouts that its declaration gives it, and structs of one group keep nothing together. Over
such a set, sameness of types is equality, what a type keeps agrees on all targets, and a type with
a shape is one vector in GLSL.
-/

set_option autoImplicit false

namespace Ember

abbrev Known := Struct → Prop

/-! ## Induction -/

theorem Ty.induct {P : Ty → Prop} (scalar : ∀ k, P (.scalar k))
    (struct : ∀ s : Struct, (∀ f ∈ s.fields, P f.ty) → P (.struct s))
    (array : ∀ of len, P of → P (.array of len))
    (alt : ∀ first others, P (.struct first) → (∀ s ∈ others, P (.struct s)) →
      P (.alt first others)) : ∀ t, P t
  | .scalar k => scalar k
  | .struct s => struct s fun f _ => Ty.induct scalar struct array alt f.ty
  | .array of len => array of len (Ty.induct scalar struct array alt of)
  | .alt first others =>
    alt first others (Ty.induct scalar struct array alt (.struct first)) fun s _ =>
      Ty.induct scalar struct array alt (.struct s)
termination_by t => sizeOf t
decreasing_by
  · rename_i member
    have h := List.sizeOf_lt_of_mem member
    obtain ⟨uid, group, name, fields, matrix, js, glsl⟩ := s
    obtain ⟨n, ty⟩ := f
    simp only [Ty.struct.sizeOf_spec, Struct.mk.sizeOf_spec, Field.mk.sizeOf_spec] at h ⊢
    omega
  · simp only [Ty.array.sizeOf_spec]
    omega
  · simp only [Ty.struct.sizeOf_spec, Ty.alt.sizeOf_spec]
    have h : 0 < sizeOf others := by cases others <;> simp
    omega
  · rename_i member
    have h := List.sizeOf_lt_of_mem member
    simp only [Ty.struct.sizeOf_spec, Ty.alt.sizeOf_spec]
    omega

/-! ## Structs with their layouts -/

namespace Struct

/-- The layouts are those that the declaration gives. -/
def Laid (s : Struct) : Prop := layoutsOf ⟨s.name, s.fields⟩ s.matrix s.group = .ok (s.js, s.glsl)

theorem layoutsOf_ok {v : Variant} {matrix : Bool} {group : Nat} {js glsl : Layout}
    (made : layoutsOf v matrix group = .ok (js, glsl)) :
    layoutOf v.fields matrix group .js = .ok js ∧
      layoutOf v.fields matrix group .glsl = .ok glsl := by
  have run : (do
      let js ← layoutOf v.fields matrix group .js
      let glsl ← layoutOf v.fields matrix group .glsl
      pure (js, glsl) : Except Failure (Layout × Layout)) = .ok (js, glsl) := by
    unfold layoutsOf at made
    cases matrix with
    | false => exact made
    | true =>
      cases checked : checkMatrix v with
      | error f => simp [checked, bind, Except.bind] at made
      | ok _ => simpa [checked, bind, Except.bind] using made
  cases first : layoutOf v.fields matrix group .js with
  | error f => simp [first, bind, Except.bind] at run
  | ok a =>
    cases second : layoutOf v.fields matrix group .glsl with
    | error f => simp [first, second, bind, Except.bind] at run
    | ok b =>
      simp only [first, second, bind, Except.bind, pure, Except.pure, Except.ok.injEq,
        Prod.mk.injEq] at run
      simp [run]

theorem Laid.layoutOf {s : Struct} (laid : s.Laid) (target : Target) :
    layoutOf s.fields s.matrix s.group target = .ok (s.layout target) := by
  cases target with
  | js => exact (layoutsOf_ok laid).1
  | glsl => exact (layoutsOf_ok laid).2

theorem Laid.fits {s : Struct} (laid : s.Laid) (target : Target) :
    (s.layout target).Fits (s.fields.map fun f => f.ty.storage target) :=
  Layout.ofFields_fits (laid.layoutOf target)

end Struct

/-- A type made of structs of a set. Elements of arrays keep something, and an alternative has
several structs of one group. -/
def Ty.Over (K : Known) : Ty → Prop
  | .scalar _ => True
  | .struct s => K s
  | .array of len => of.Over K ∧ of.isVoid = false ∧ 0 < len
  | .alt first others =>
    K first ∧ others ≠ [] ∧ ∀ s ∈ others, K s ∧ s.group = first.group ∧ s.uid ≠ first.uid

/-- A set of structs that hangs together. -/
structure Known.Closed (K : Known) : Prop where
  unique : ∀ s t, K s → K t → s.uid = t.uid → s = t
  laid : ∀ s, K s → s.Laid
  fields : ∀ s, K s → ∀ f ∈ s.fields, f.ty.Over K
  void_group : ∀ s t, K s → K t → s.group = t.group → s.isVoid = t.isVoid

/-- Structs with the layouts that their declarations give, and with fields over such structs. -/
structure Known.Grounded (K : Known) : Prop where
  laid : ∀ s, K s → s.Laid
  fields : ∀ s, K s → ∀ f ∈ s.fields, f.ty.Over K

theorem Known.Closed.grounded {K : Known} (closed : K.Closed) : K.Grounded :=
  ⟨closed.laid, closed.fields⟩

theorem Ty.Over.mono {K L : Known} (sub : ∀ s, K s → L s) {t : Ty} (h : t.Over K) : t.Over L := by
  induction t using Ty.induct with
  | scalar k => trivial
  | struct s ih => exact sub s h
  | array of len ih => exact ⟨ih h.1, h.2⟩
  | alt first others _ _ =>
    refine ⟨sub first h.1, h.2.1, fun s member => ?_⟩
    have member := h.2.2 s member
    exact ⟨sub s member.1, member.2⟩

namespace Known.Grounded

variable {K : Known} (grounded : K.Grounded)

include grounded

/-- The targets agree on what keeps nothing. -/
theorem storage_void {t : Ty} (valid : t.Over K) (target : Target) :
    t.storage target = .void ↔ t.isVoid = true := by
  induction t using Ty.induct generalizing target with
  | scalar k => simp [Ty.storage, Storage.scalar, Ty.isVoid]
  | struct s ih =>
    have all_void (target : Target) : (∀ r ∈ s.fields.map fun f => f.ty.storage target, r = .void) ↔
        ∀ f ∈ s.fields, f.ty.isVoid = true := by
      simp only [List.mem_map, forall_exists_index, and_imp, forall_apply_eq_imp_iff₂]
      exact forall₂_congr fun f member => ih f member (grounded.fields s valid f member) target
    have path := ((grounded.laid s valid).fits .js).path_void
    rw [all_void] at path
    simp only [Ty.storage, ((grounded.laid s valid).fits target).storage_void, all_void]
    simp only [Ty.isVoid, Struct.isVoid, beq_iff_eq]
    exact path.symm
  | array of len ih => simp [Ty.storage, Ty.isVoid]
  | alt first others ih _ => exact ih valid.1 target

end Known.Grounded

namespace Known.Closed

variable {K : Known} (closed : K.Closed)

include closed

theorem storage_void {t : Ty} (valid : t.Over K) (target : Target) :
    t.storage target = .void ↔ t.isVoid = true := closed.grounded.storage_void valid target

theorem fields_storage_void {s : Struct} (known : K s) (target : Target) :
    (∀ r ∈ s.fields.map fun f => f.ty.storage target, r = .void) ↔
      ∀ f ∈ s.fields, f.ty.isVoid = true := by
  simp only [List.mem_map, forall_exists_index, and_imp, forall_apply_eq_imp_iff₂]
  exact forall₂_congr fun f member => closed.storage_void (closed.fields s known f member) target

/-- A struct keeps nothing if none of its fields does. -/
theorem isVoid_iff {s : Struct} (known : K s) :
    s.isVoid = true ↔ ∀ f ∈ s.fields, f.ty.isVoid = true := by
  rw [← closed.fields_storage_void known .js, ← ((closed.laid s known).fits .js).path_void]
  simp [Struct.isVoid, Struct.layout]

/-- The fields without an accessor are those that keep nothing. -/
theorem accessors {s : Struct} (known : K s) (target : Target) :
    List.Forall₂ (fun (f : Field) a => a = .zero ↔ f.ty.isVoid = true) s.fields
      (s.layout target).accessors := by
  have places := List.forall₂_map_left_iff.mp ((closed.laid s known).fits target).places
  refine (List.forall₂_iff_get.mpr ⟨places.length_eq, fun i hi hj => ?_⟩)
  rw [places.get hi hj]
  exact closed.storage_void (closed.fields s known _ (List.get_mem _ _)) target

theorem builder_unit {s : Struct} (known : K s) (target : Target) :
    (s.layout target).builder = .unit ↔ s.isVoid = true := by
  rw [((closed.laid s known).fits target).builder_unit, closed.fields_storage_void known,
    closed.isVoid_iff known]

/-- The structs of an alternative keep something, or none of them does. -/
theorem member_isVoid {first s : Struct} {others : List Struct}
    (valid : (Ty.alt first others).Over K) (member : s ∈ first :: others) :
    s.isVoid = first.isVoid := by
  rcases List.mem_cons.mp member with rfl | other
  · rfl
  · have other := valid.2.2 s other
    exact closed.void_group s first other.1 valid.1 other.2.1

theorem eq_of_uids {as bs : List Struct} (knownA : ∀ s ∈ as, K s) (knownB : ∀ s ∈ bs, K s)
    (same : as.map Struct.uid = bs.map Struct.uid) : as = bs := by
  induction as generalizing bs with
  | nil => exact (List.map_eq_nil_iff.mp same.symm).symm
  | cons a as ih =>
    cases bs with
    | nil => simp at same
    | cons b bs =>
      simp only [List.map_cons, List.cons.injEq] at same
      rw [closed.unique a b (knownA a (by simp)) (knownB b (by simp)) same.1,
        ih (fun s h => knownA s (by simp [h])) (fun s h => knownB s (by simp [h])) same.2]

/-- Types that are the same are equal. -/
theorem eq_of_same {a b : Ty} (validA : a.Over K) (validB : b.Over K) (same : (a == b) = true) :
    a = b := by
  change a.same b = true at same
  induction a using Ty.induct generalizing b with
  | scalar k =>
    cases b with
    | scalar k' => simpa [Ty.same] using same
    | struct _ => simp [Ty.same] at same
    | array _ _ => simp [Ty.same] at same
    | alt _ _ => simp [Ty.same] at same
  | struct s ih =>
    cases b with
    | struct t => rw [closed.unique s t validA validB (by simpa [Ty.same] using same)]
    | scalar _ => simp [Ty.same] at same
    | array _ _ => simp [Ty.same] at same
    | alt _ _ => simp [Ty.same] at same
  | array of len ih =>
    cases b with
    | array of' len' =>
      simp only [Ty.same, Bool.and_eq_true, beq_iff_eq] at same
      rw [ih validA.1 validB.1 same.2, same.1]
    | scalar _ => simp [Ty.same] at same
    | struct _ => simp [Ty.same] at same
    | alt _ _ => simp [Ty.same] at same
  | alt first others _ _ =>
    cases b with
    | alt first' others' =>
      have knownA : ∀ s ∈ first :: others, K s := by
        intro s member
        rcases List.mem_cons.mp member with rfl | other
        · exact validA.1
        · exact (validA.2.2 s other).1
      have knownB : ∀ s ∈ first' :: others', K s := by
        intro s member
        rcases List.mem_cons.mp member with rfl | other
        · exact validB.1
        · exact (validB.2.2 s other).1
      have lists := closed.eq_of_uids knownA knownB (by simpa [Ty.same] using same)
      cases lists
      rfl
    | scalar _ => simp [Ty.same] at same
    | struct _ => simp [Ty.same] at same
    | array _ _ => simp [Ty.same] at same

end Known.Closed

/-! ## Shapes -/

def Field.kept (fs : List Field) : List Field := fs.filter fun f => !f.ty.isVoid

theorem Ty.fieldsShape_some {acc : Option (Option ScalarKind × Nat)} {fs : List Field}
    {k : ScalarKind} {w : Nat} (shape : Ty.fieldsShape acc fs = some (some k, w)) :
    ∃ kind n ws, acc = some (kind, n) ∧ kind.all (· == k) = true ∧
      (Field.kept fs).map (fun f => f.ty.shape?) = ws.map (fun v => some (k, v)) ∧
      n + ws.sum = w ∧ (kind = none → ws ≠ []) := by
  induction fs generalizing acc with
  | nil =>
    rw [Ty.fieldsShape] at shape
    exact ⟨some k, w, [], shape, by simp, rfl, by simp, by simp⟩
  | cons f fs ih =>
    obtain ⟨name, ty⟩ := f
    rw [Ty.fieldsShape] at shape
    split at shape
    case isTrue void => simpa [Field.kept, void] using ih shape
    case isFalse void =>
      obtain ⟨kind, n, ws, joined, all_k, shapes, total, _⟩ := ih shape
      cases acc with
      | none => simp [Ty.joinShapes] at joined
      | some pair =>
        obtain ⟨kind', n'⟩ := pair
        cases found : ty.shape? with
        | none => simp [Ty.joinShapes, found] at joined
        | some own =>
          obtain ⟨k', w'⟩ := own
          rw [found, Ty.joinShapes] at joined
          split at joined
          case isFalse => simp at joined
          case isTrue before =>
            simp only [Option.some.injEq, Prod.mk.injEq] at joined
            obtain ⟨rfl, rfl⟩ := joined
            simp only [Option.all_some, beq_iff_eq] at all_k
            subst all_k
            refine ⟨kind', n', w' :: ws, rfl, before, ?_, ?_, by simp⟩
            · simpa [Field.kept, void, found] using shapes
            · simp only [List.sum_cons]
              omega

/-- A struct with a shape is no matrix, and its fields share the components. -/
theorem Struct.shape?_some {s : Struct} {k : ScalarKind} {w : Nat} (shape : s.shape? = some (k, w)) :
    s.matrix = false ∧ 1 ≤ w ∧ w ≤ 4 ∧ ∃ ws : List Nat, ws ≠ [] ∧ ws.sum = w ∧
      (Field.kept s.fields).map (fun f => f.ty.shape?) = ws.map (fun v => some (k, v)) := by
  obtain ⟨uid, group, name, fields, matrix, js, glsl⟩ := s
  rw [Struct.shape?] at shape
  split at shape
  · simp at shape
  rename_i plain
  split at shape
  · rename_i k' w' found
    split at shape
    case isFalse => simp at shape
    case isTrue bounds =>
      simp only [Option.some.injEq, Prod.mk.injEq] at shape
      obtain ⟨rfl, rfl⟩ := shape
      obtain ⟨kind, n, ws, start, _, shapes, total, nonempty⟩ := Ty.fieldsShape_some found
      simp only [Option.some.injEq, Prod.mk.injEq] at start
      obtain ⟨rfl, rfl⟩ := start
      exact ⟨by simpa using plain, bounds.1, bounds.2, ws, nonempty rfl, by omega, shapes⟩
  · simp at shape

theorem Ty.shape?_bounds {t : Ty} {k : ScalarKind} {w : Nat} (shape : t.shape? = some (k, w)) :
    1 ≤ w ∧ w ≤ 4 := by
  cases t with
  | scalar k' =>
    rw [Ty.shape?] at shape
    simp only [Option.some.injEq, Prod.mk.injEq] at shape
    omega
  | struct s =>
    rw [Ty.shape?] at shape
    have found := Struct.shape?_some shape
    exact ⟨found.2.1, found.2.2.1⟩
  | array _ _ => simp [Ty.shape?] at shape
  | alt _ _ => simp [Ty.shape?] at shape

namespace Known.Grounded

variable {K : Known} (grounded : K.Grounded)

include grounded

theorem stored_eq {fs : List Field} (valid : ∀ f ∈ fs, f.ty.Over K) (target : Target) :
    (fs.map fun f => f.ty.storage target).filter (fun r => !r.isVoid) =
      (Field.kept fs).map fun f => f.ty.storage target := by
  rw [List.filter_map, Field.kept]
  congr 1
  refine List.filter_congr fun f member => ?_
  have same := grounded.storage_void (valid f member) target
  cases void : f.ty.isVoid <;> simp_all

/-- What has a shape is one vector in GLSL. -/
theorem storage_of_shape {t : Ty} {k : ScalarKind} {w : Nat} (valid : t.Over K)
    (shape : t.shape? = some (k, w)) : t.storage .glsl = .vector k w := by
  induction t using Ty.induct generalizing k w with
  | scalar k' =>
    simp only [Ty.shape?, Option.some.injEq, Prod.mk.injEq] at shape
    obtain ⟨rfl, rfl⟩ := shape
    rfl
  | struct s ih =>
    rw [Ty.shape?] at shape
    obtain ⟨plain, wide, small, ws, nonempty, rfl, shapes⟩ := Struct.shape?_some shape
    have made := (grounded.laid s valid).layoutOf .glsl
    rw [plain] at made
    have stored : (Field.kept s.fields).map (fun f => f.ty.storage .glsl) =
        ws.map (Storage.vector k) := by
      refine List.ext_getElem? fun i => ?_
      have at_i := congrArg (·[i]?) shapes
      simp only [List.getElem?_map] at at_i ⊢
      cases found : (Field.kept s.fields)[i]? with
      | none =>
        rw [found] at at_i
        cases w_i : ws[i]? <;> simp_all
      | some f =>
        rw [found] at at_i
        cases w_i : ws[i]? with
        | none => simp [w_i] at at_i
        | some v =>
          have member : f ∈ s.fields := (List.mem_filter.mp (List.mem_of_getElem? found)).1
          simp only [w_i, Option.map_some, Option.some.injEq] at at_i ⊢
          exact ih f member (grounded.fields s valid f member) at_i
    have positive : ∀ v ∈ ws, 1 ≤ v := by
      intro v member
      have shaped : some (k, v) ∈ (Field.kept s.fields).map (fun f => f.ty.shape?) := by
        rw [shapes]
        exact List.mem_map_of_mem member
      obtain ⟨f, _, found⟩ := List.mem_map.mp shaped
      exact (Ty.shape?_bounds found).1
    rw [← grounded.stored_eq (grounded.fields s valid)] at stored
    exact Layout.ofFields_vectors stored positive nonempty small made
  | array of len ih => simp [Ty.shape?] at shape
  | alt first others _ _ => simp [Ty.shape?] at shape

end Known.Grounded

namespace Known.Closed

variable {K : Known} (closed : K.Closed)

include closed

theorem storage_of_shape {t : Ty} {k : ScalarKind} {w : Nat} (valid : t.Over K)
    (shape : t.shape? = some (k, w)) : t.storage .glsl = .vector k w :=
  closed.grounded.storage_of_shape valid shape

theorem not_void_of_shape {t : Ty} {k : ScalarKind} {w : Nat} (valid : t.Over K)
    (shape : t.shape? = some (k, w)) : t.isVoid = false := by
  have stored := closed.storage_of_shape valid shape
  have same := closed.storage_void valid .glsl
  rw [stored] at same
  simpa using same

end Known.Closed
end Ember
