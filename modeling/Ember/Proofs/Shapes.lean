import Ember.Proofs.Safe.Call

/-!
# Shapes and layouts

Two recursions say what a type keeps: `Ty.shape?` goes over the types of fields, and layouts go over
what the fields are kept as, for each target. They agree on every type that is made of scalars.
A shape is a vector of GLSL, and a vector of GLSL is a shape as long as no alternative hides it.
So a matrix whose columns have shapes gets its layout, and a declaration never contradicts itself.
-/

set_option autoImplicit false

namespace Ember

/-- The types that are made of scalars: by declaring structs, as arrays and as alternatives. -/
inductive Ty.Formed : Ty → Prop
  | scalar (k : ScalarKind) : Formed (.scalar k)
  | struct {vs : List Variant} {matrix : Bool} {ids ids' : Ids} {ss : List Struct} {s : Struct}
      (fields : ∀ v ∈ vs, ∀ f ∈ v.fields, Formed f.ty)
      (declared : Struct.declareGroup vs matrix ids = .ok ss ids') (member : s ∈ ss) :
      Formed (.struct s)
  | array {of t : Ty} {len : Nat} (element : Formed of) (made : mkArray of len = .ok t) : Formed t
  | alt {members : List Struct} {t : Ty} (each : ∀ s ∈ members, Formed (.struct s))
      (made : mkAlt members = .ok t) : Formed t

inductive Ty.AltFree : Ty → Prop
  | scalar (k : ScalarKind) : AltFree (.scalar k)
  | struct {s : Struct} (fields : ∀ f ∈ s.fields, AltFree f.ty) : AltFree (.struct s)
  | array {of : Ty} {len : Nat} (element : AltFree of) : AltFree (.array of len)

/-! ## Shapes from the shapes of fields -/

theorem map_eq_map_of_map_eq_map {α β γ δ : Type} {f : α → γ} {g : β → γ} {f' : α → δ} {g' : β → δ}
    {as : List α} {bs : List β} (same : as.map f = bs.map g)
    (each : ∀ a ∈ as, ∀ b, f a = g b → f' a = g' b) : as.map f' = bs.map g' := by
  induction as generalizing bs with
  | nil =>
    obtain rfl : bs = [] := by simpa using same.symm
    rfl
  | cons a as ih =>
    cases bs with
    | nil => simp at same
    | cons b bs =>
      simp only [List.map_cons, List.cons.injEq] at same ⊢
      exact ⟨each a (by simp) b same.1, ih same.2 fun c member => each c (by simp [member])⟩

theorem Ty.fieldsShape_of_shapes {fs : List Field} {k : ScalarKind} {ws : List Nat}
    {kind : Option ScalarKind} {n : Nat} (before : kind.all (· == k) = true)
    (shapes : (Field.kept fs).map (fun f => f.ty.shape?) = ws.map fun v => some (k, v)) :
    Ty.fieldsShape (some (kind, n)) fs =
      some (if ws.isEmpty then kind else some k, n + ws.sum) := by
  induction fs generalizing ws kind n with
  | nil =>
    obtain rfl : ws = [] := by simpa [Field.kept] using shapes.symm
    rw [Ty.fieldsShape]
    rfl
  | cons f fs ih =>
    obtain ⟨name, ty⟩ := f
    rw [Ty.fieldsShape]
    by_cases void : ty.isVoid = true
    · rw [if_pos void]
      exact ih before (by simpa [Field.kept, void] using shapes)
    · rw [if_neg void]
      cases ws with
      | nil => simp [Field.kept, void] at shapes
      | cons w ws =>
        have parts : ty.shape? = some (k, w) ∧ (Field.kept fs).map (fun f => f.ty.shape?) =
            ws.map fun v => some (k, v) := by simpa [Field.kept, void] using shapes
        rw [parts.1, Ty.joinShapes, if_pos before, ih (by simp) parts.2, List.sum_cons]
        cases ws <;> simp [Nat.add_assoc]

theorem Struct.shape?_of_shapes {s : Struct} {k : ScalarKind} {ws : List Nat}
    (plain : s.matrix = false)
    (shapes : (Field.kept s.fields).map (fun f => f.ty.shape?) = ws.map fun v => some (k, v))
    (nonempty : ws ≠ []) (width : 1 ≤ ws.sum ∧ ws.sum ≤ 4) : s.shape? = some (k, ws.sum) := by
  obtain ⟨uid, group, name, fields, matrix, js, glsl⟩ := s
  obtain rfl : matrix = false := plain
  rw [Struct.shape?, Ty.fieldsShape_of_shapes (by rfl) shapes]
  simp [nonempty, width]

namespace Known.Grounded

variable {K : Known} (grounded : K.Grounded)

include grounded

theorem way {s : Struct} (known : K s) (target : Target) : ∃ as, Layout.Way s.matrix target s.group
    ((Field.kept s.fields).map fun f => f.ty.storage target) as (s.layout target) := by
  obtain ⟨as, _, way⟩ := Layout.ofFields_way ((grounded.laid s known).layoutOf target)
  rw [grounded.stored_eq (grounded.fields s known)] at way
  exact ⟨as, way⟩

/-- A matrix has columns, and so the layout of one. -/
theorem matrix_path {s : Struct} (known : K s) (tagged : s.matrix = true) :
    (s.layout .glsl).path = .matrix := by
  have columns : 2 ≤ (Field.kept s.fields).length := by
    have laid := grounded.laid s known
    unfold Struct.Laid Struct.layoutsOf at laid
    cases checked : Struct.checkMatrix ⟨s.name, s.fields⟩ with
    | error f => simp [tagged, checked, bind, Except.bind] at laid
    | ok _ =>
      unfold Struct.checkMatrix at checked
      dsimp only at checked
      split at checked
      · rename_i count
        exact count.1
      · cases checked
  obtain ⟨as, way⟩ := grounded.way known .glsl
  have several : 2 ≤ ((Field.kept s.fields).map fun f => f.ty.storage .glsl).length := by
    simpa using columns
  rw [tagged] at way
  generalize (Field.kept s.fields).map (fun f => f.ty.storage .glsl) = stored at way several
  generalize s.layout .glsl = l at way ⊢
  cases way with
  | void => simp at several
  | transparent r => simp at several
  | vectorMerge _ plain => cases plain
  | matrix => rfl
  | struct _ _ apart => cases (apart rfl).1

/-- What the fields are kept as of a struct that is one vector in GLSL. -/
theorem vectors_of_storage {s : Struct} {k : ScalarKind} {w : Nat} (known : K s)
    (stored : (s.layout .glsl).storage = .vector k w) : s.matrix = false ∧ ∃ ws : List Nat,
      (Field.kept s.fields).map (fun f => f.ty.storage .glsl) = ws.map (.vector k) ∧
        ws.sum = w ∧ (ws = [w] ∨ 2 ≤ w ∧ w ≤ 4) := by
  have path : s.matrix = true → (s.layout .glsl).path = .matrix := grounded.matrix_path known
  obtain ⟨as, way⟩ := grounded.way known .glsl
  generalize (Field.kept s.fields).map (fun f => f.ty.storage .glsl) = kept at way ⊢
  generalize s.layout .glsl = l at way stored path
  cases way with
  | void => cases stored
  | transparent r =>
    obtain rfl : r = .vector k w := stored
    refine ⟨?_, [w], rfl, by simp, .inl rfl⟩
    by_contra tagged
    cases path (by simpa using tagged)
  | vectorMerge _ plain k' ws several width =>
    cases stored
    exact ⟨plain, ws, rfl, rfl, .inr width⟩
  | matrix => cases stored
  | struct => cases stored

/-- What is one vector in GLSL has a shape, unless an alternative hides it. -/
theorem shape_of_storage {t : Ty} {k : ScalarKind} {w : Nat} (valid : t.Over K) (free : t.AltFree)
    (stored : t.storage .glsl = .vector k w) : t.shape? = some (k, w) := by
  induction t using Ty.induct generalizing k w with
  | scalar k' =>
    cases stored
    rw [Ty.shape?]
  | struct s ih =>
    cases free with
    | struct free =>
      obtain ⟨plain, ws, vectors, rfl, width⟩ := grounded.vectors_of_storage valid stored
      have shapes : (Field.kept s.fields).map (fun f => f.ty.shape?) =
          ws.map fun v => some (k, v) := by
        refine map_eq_map_of_map_eq_map vectors fun f member v own => ?_
        have member := List.mem_of_mem_filter member
        exact ih f member (grounded.fields s valid f member) (free f member) own
      have nonempty : ws ≠ [] := by
        rintro rfl
        simp at width
      have bounds : 1 ≤ ws.sum ∧ ws.sum ≤ 4 := by
        rcases width with one | several
        · have only : some (k, ws.sum) ∈ (Field.kept s.fields).map (fun f => f.ty.shape?) := by
            rw [shapes, one]
            simp
          obtain ⟨f, _, shape⟩ := List.mem_map.mp only
          exact Ty.shape?_bounds shape
        · omega
      rw [Ty.shape?]
      exact Struct.shape?_of_shapes plain shapes nonempty bounds
  | array of len _ => cases stored
  | alt first others _ _ => cases free

end Known.Grounded

/-! ## Types that are built -/

def Known.formed : Known := fun s => (Ty.struct s).Formed

namespace Ty.Formed

/-- Structs have their layouts, and fields of built types. -/
theorem of_struct {t : Ty} (built : t.Formed) {s : Struct} (struct : t = .struct s) :
    s.Laid ∧ ∀ f ∈ s.fields, f.ty.Formed := by
  induction built generalizing s with
  | scalar k => cases struct
  | struct fields declared member =>
    cases struct
    obtain ⟨_, _, new⟩ := (Struct.declared_of_ok fields declared).new member
    exact ⟨new.laid, new.fields⟩
  | array _ made =>
    subst struct
    unfold mkArray at made
    split at made
    · cases made
    · split at made <;> cases made
  | alt _ made ih =>
    subst struct
    exact ih s (mkAlt_over made) rfl

theorem valid {t : Ty} (built : t.Formed) : t.Over Known.formed := by
  induction built with
  | scalar k => trivial
  | struct fields declared member => exact .struct fields declared member
  | @array of _ len _ made ih =>
    have gives := mkArray_gives ih len
    rw [made] at gives
    exact gives.2
  | alt each made _ =>
    exact (mkAlt_over made).mono each

theorem grounded : Known.formed.Grounded where
  laid _ known := (known.of_struct rfl).1
  fields _ known f member := ((known.of_struct rfl).2 f member).valid

/-- Types and layouts agree. Both targets keep nothing of a type exactly if it is void; what has a
shape is that vector in GLSL, and the other way round where no alternative is involved. Structs of
such fields can be declared or are refused for a problem, and a matrix has the layout of one. -/
theorem shape_agrees {t : Ty} (built : t.Formed) {vs : List Variant}
    (fields : ∀ v ∈ vs, ∀ f ∈ v.fields, f.ty.Formed) (matrix : Bool) (ids : Ids) :
    (∀ target, t.storage target = .void ↔ t.isVoid = true) ∧
    (∀ k w, t.shape? = some (k, w) → t.storage .glsl = .vector k w) ∧
    (t.AltFree → ∀ k w, t.storage .glsl = .vector k w → t.shape? = some (k, w)) ∧
    Ends (Struct.declareGroup vs matrix) ids
      (fun ss _ => matrix = true → ∀ s ∈ ss, s.glsl.path = .matrix) (fun f _ => ¬ f.IsDefect) := by
  refine ⟨grounded.storage_void built.valid, fun k w => grounded.storage_of_shape built.valid,
    fun free k w => grounded.shape_of_storage built.valid free, ?_⟩
  have known : ∀ v ∈ vs, ∀ f ∈ v.fields, f.ty.Over Known.formed := fun v listed f field =>
    (fields v listed f field).valid
  have ends := Struct.declareGroup_run not_isDefect_problem vs fields ids
    fun v listed f (refused : Struct.layoutsOf v matrix ids.next = .error f) =>
      Struct.layoutsOf_error grounded (known v listed) refused
  unfold Ends at ends ⊢
  cases run : Struct.declareGroup vs matrix ids with
  | error f ids' =>
    rw [run] at ends
    exact ends.2
  | ok ss ids' =>
    intro tagged s member
    rw [run] at ends
    obtain ⟨_, _, new⟩ := ends.new member
    exact grounded.matrix_path (.struct fields run member) (new.matrix_eq.trans tagged)

/-- A vector of two numbers has that shape, and two of them are the columns of a matrix. -/
theorem shape_agrees_columns : ∃ column matrix : Struct,
    (Ty.struct column).shape? = some (.float, 2) ∧
    Struct.declareGroup [⟨"m", [⟨"a", .struct column⟩, ⟨"b", .struct column⟩]⟩] true ⟨3⟩ =
      .ok [matrix] ⟨5⟩ ∧
    (Ty.struct column).storage .glsl = .vector .float 2 ∧ matrix.glsl.path = .matrix := by
  obtain ⟨column, shaped, declared, matrix, run⟩ : ∃ column,
      (Ty.struct column).shape? = some (.float, 2) ∧
      Struct.declareGroup [⟨"v", [⟨"x", .scalar .float⟩, ⟨"y", .scalar .float⟩]⟩] false ⟨1⟩ =
        .ok [column] ⟨3⟩ ∧
      ∃ matrix, Struct.declareGroup [⟨"m", [⟨"a", .struct column⟩, ⟨"b", .struct column⟩]⟩] true
        ⟨3⟩ = .ok [matrix] ⟨5⟩ := ⟨_, rfl, rfl, _, rfl⟩
  have built : (Ty.struct column).Formed := .struct (by
    simp only [List.mem_cons, List.not_mem_nil, or_false, forall_eq, forall_eq_or_imp]
    exact ⟨.scalar _, .scalar _⟩) declared (by simp)
  have columns : ∀ v ∈ [(⟨"m", [⟨"a", .struct column⟩, ⟨"b", .struct column⟩]⟩ : Variant)],
      ∀ f ∈ v.fields, f.ty.Formed := by simpa using built
  have agrees := shape_agrees built columns true ⟨3⟩
  refine ⟨column, matrix, shaped, run, agrees.2.1 _ _ shaped, ?_⟩
  have ends := agrees.2.2.2
  unfold Ends at ends
  rw [run] at ends
  exact ends rfl matrix (by simp)

end Ty.Formed

end Ember
