import Ember.Proofs.Ends
import Ember.Proofs.Types

/-!
# What a declaration adds

Structs that are declared get new numbers, so a set of structs that hangs together still does when
they are added to it. A declaration may be refused, but layouts never contradict the checks that
were made before.
-/

set_option autoImplicit false

namespace Ember

namespace Struct

theorem checkColumns_ok {name : String} {rows : Option Nat} {fs : List Field}
    (checked : checkColumns name rows fs = .ok ()) (nonempty : fs ≠ []) :
    ∃ w, 2 ≤ w ∧ w ≤ 4 ∧ rows.all (· == w) = true ∧
      ∀ f ∈ fs, f.ty.shape? = some (.float, w) := by
  induction fs generalizing rows with
  | nil => simp at nonempty
  | cons f fs ih =>
    rw [checkColumns] at checked
    split at checked
    case h_2 => simp at checked
    case h_1 w shape =>
      split at checked
      case isFalse => simp at checked
      case isTrue fits =>
        refine ⟨w, fits.1, fits.2.1, fits.2.2, ?_⟩
        cases fs with
        | nil => simpa using shape
        | cons g gs =>
          obtain ⟨w', _, _, same, rest⟩ := ih checked (by simp)
          simp only [Option.all_some, beq_iff_eq] at same
          subst same
          simpa [shape] using rest

theorem checkColumns_error {name : String} {rows : Option Nat} {fs : List Field} {f : Failure}
    (refused : checkColumns name rows fs = .error f) : ¬ f.IsDefect := by
  induction fs generalizing rows with
  | nil => simp [checkColumns] at refused
  | cons g gs ih =>
    rw [checkColumns] at refused
    split at refused
    · split at refused
      · exact ih refused
      · cases refused
        simp
    · cases refused
      simp

theorem checkMatrix_error {v : Variant} {f : Failure} (refused : checkMatrix v = .error f) :
    ¬ f.IsDefect := by
  unfold checkMatrix at refused
  dsimp only at refused
  split at refused
  · exact checkColumns_error refused
  · cases refused
    simp

/-- Columns that were checked make a matrix. -/
theorem layoutOf_matrix {K : Known} (grounded : K.Grounded) {v : Variant}
    (valid : ∀ f ∈ v.fields, f.ty.Over K) (checked : checkMatrix v = .ok ()) (group : Nat)
    (target : Target) : ∃ l, layoutOf v.fields true group target = .ok l := by
  unfold checkMatrix at checked
  dsimp only at checked
  split at checked
  case isFalse => simp at checked
  case isTrue count =>
    change 2 ≤ (Field.kept v.fields).length ∧ (Field.kept v.fields).length ≤ 4 at count
    have nonempty : Field.kept v.fields ≠ [] := by
      intro empty
      simp [empty] at count
    obtain ⟨w, wide, small, _, shapes⟩ := checkColumns_ok checked nonempty
    refine Layout.ofFields_columns (w := w) (fun vectors => ?_) ⟨wide, small⟩ count
    have glsl : target = .glsl := by simpa [Target.hasVectors] using vectors
    subst glsl
    rw [grounded.stored_eq valid, List.eq_replicate_iff]
    refine ⟨by simp, fun r member => ?_⟩
    obtain ⟨f, kept, rfl⟩ := List.mem_map.mp member
    exact grounded.storage_of_shape (valid f (List.mem_filter.mp kept).1) (shapes f kept)

theorem layoutsOf_error {K : Known} (grounded : K.Grounded) {v : Variant} {matrix : Bool}
    {group : Nat} {f : Failure} (valid : ∀ f ∈ v.fields, f.ty.Over K)
    (refused : layoutsOf v matrix group = .error f) : ¬ f.IsDefect := by
  unfold layoutsOf at refused
  cases matrix with
  | false =>
    obtain ⟨a, js⟩ := Layout.ofFields_plain (v.fields.map fun f => f.ty.storage .js) .js group
    obtain ⟨b, glsl⟩ := Layout.ofFields_plain (v.fields.map fun f => f.ty.storage .glsl) .glsl group
    simp [layoutOf, js, glsl, bind, Except.bind, pure, Except.pure] at refused
  | true =>
    cases checked : checkMatrix v with
    | error g =>
      simp only [checked, bind, Except.bind, if_true, Except.error.injEq] at refused
      rw [← refused]
      exact checkMatrix_error checked
    | ok _ =>
      obtain ⟨a, js⟩ := layoutOf_matrix grounded valid checked group .js
      obtain ⟨b, glsl⟩ := layoutOf_matrix grounded valid checked group .glsl
      simp [checked, js, glsl, bind, Except.bind, pure, Except.pure] at refused

theorem checkShared_gives (first : Struct) (name : String) (layout : Layout) (target : Target)
    {bad : Failure → Prop} (problem : ∀ p, bad (.problem p)) :
    Gives (checkShared first name layout target)
      (fun _ => (first.layout target).isCompatible layout = true) bad := by
  unfold checkShared
  dsimp only
  split
  case isTrue same => exact same
  case isFalse => exact problem _

/-- Structs that keep the same things in the same places. -/
def Alike (s t : Struct) : Prop := ∀ target, (s.layout target).isCompatible (t.layout target) = true

theorem alike_iff {s t : Struct} : s.Alike t ↔ ∀ target,
    (s.layout target).path = (t.layout target).path ∧
      (s.layout target).storage = (t.layout target).storage ∧
      (s.layout target).slots = (t.layout target).slots := by
  simp only [Alike, Layout.isCompatible, Bool.and_eq_true, beq_iff_eq, and_assoc]

theorem Alike.refl (s : Struct) : s.Alike s := alike_iff.mpr fun _ => ⟨rfl, rfl, rfl⟩

theorem Alike.isVoid {s t : Struct} (alike : s.Alike t) : s.isVoid = t.isVoid := by
  have path := (alike_iff.mp alike .js).1
  simp only [layout] at path
  rw [Struct.isVoid, Struct.isVoid, path]

/-- A struct that was declared with these numbers at hand, of types that `P` holds of. -/
structure New (P : Ty → Prop) (matrix : Bool) (group low high : Nat) (v : Variant) (s : Struct) :
    Prop where
  above : low ≤ s.uid
  below : s.uid < high
  group_eq : s.group = group
  name_eq : s.name = v.name
  fields_eq : s.fields = v.fields
  matrix_eq : s.matrix = matrix
  laid : s.Laid
  fields : ∀ f ∈ s.fields, P f.ty

section Declared

variable {P : Ty → Prop} {matrix : Bool} {group : Nat}

theorem New.mono {low low' high high' : Nat} {v : Variant} {s : Struct}
    (new : New P matrix group low' high v s) (less : low ≤ low') (more : high ≤ high') :
    New P matrix group low high' v s :=
  { new with above := less.trans new.above, below := new.below.trans_le more }

/-- What a declaration of variants comes to, from the numbers at hand on. All are like the first. -/
structure Declared (P : Ty → Prop) (matrix : Bool) (group : Nat) (first : Option Struct)
    (vs : List Variant) (ids : Ids) (ss : List Struct) (ids' : Ids) : Prop where
  grown : ids.next ≤ ids'.next
  news : List.Forall₂ (New P matrix group ids.next ids'.next) vs ss
  ordered : (ss.map Struct.uid).Pairwise (· < ·)
  alike : ∀ f ∈ first <|> ss.head?, ∀ s ∈ ss, f.Alike s

theorem Declared.cons {first : Option Struct} {v : Variant} {vs : List Variant} {ids ids' : Ids}
    {s : Struct} {ss : List Struct}
    (rest : Declared P matrix group (some (first.getD s)) vs ⟨ids.next + 1⟩ ss ids')
    (new : New P matrix group ids.next (ids.next + 1) v s) (uid : s.uid = ids.next)
    (same : ∀ f ∈ first, f.Alike s) :
    Declared P matrix group first (v :: vs) ids (s :: ss) ids' := by
  obtain ⟨grown, news, ordered, alike⟩ := rest
  simp only at grown news
  refine ⟨by omega, .cons (new.mono le_rfl grown) ?_, ?_, ?_⟩
  · exact news.imp fun _ _ h => h.mono (by omega) le_rfl
  · simp only [List.map_cons, List.pairwise_cons, List.mem_map, forall_exists_index, and_imp,
      forall_apply_eq_imp_iff₂]
    refine ⟨fun t member => ?_, ordered⟩
    obtain ⟨_, _, new_t⟩ := exists_left_of_forall₂ news member
    have above := new_t.above
    omega
  · cases first with
    | none =>
      rintro _ ⟨⟩
      exact List.forall_mem_cons.mpr ⟨.refl s, alike s rfl⟩
    | some f =>
      rintro _ ⟨⟩
      exact List.forall_mem_cons.mpr ⟨same f rfl, alike f rfl⟩

theorem Declared.new {first : Option Struct} {vs : List Variant} {ids ids' : Ids}
    {ss : List Struct} (declared : Declared P matrix group first vs ids ss ids') {s : Struct}
    (member : s ∈ ss) : ∃ v ∈ vs, New P matrix group ids.next ids'.next v s :=
  exists_left_of_forall₂ declared.news member

/-- A declaration is refused for a problem, or because some layout is. -/
theorem declareAfter_ends {B : Failure → Prop} (problem : ∀ p, B (.problem p))
    (first : Option Struct) (vs : List Variant) (valid : ∀ v ∈ vs, ∀ f ∈ v.fields, P f.ty)
    (refused : ∀ v ∈ vs, ∀ f, layoutsOf v matrix group = .error f → B f) (ids : Ids) :
    Ends (declareAfter matrix group first vs) ids
      (Declared P matrix group first vs ids) (fun f ids' => ids.next ≤ ids'.next ∧ B f) := by
  induction vs generalizing first ids with
  | nil =>
    rw [declareAfter]
    exact Ends.pure ⟨le_rfl, .nil, .nil, by simp⟩
  | cons v vs ih =>
    rw [declareAfter]
    refine Ends.bind (Ends.lift ?_)
    cases made : layoutsOf v matrix group with
    | error f => exact ⟨le_rfl, refused v (by simp) f made⟩
    | ok layouts =>
      obtain ⟨js, glsl⟩ := layouts
      -- what is left once the layouts are known to fit
      have rest (same : ∀ f ∈ first, f.js.isCompatible js = true ∧ f.glsl.isCompatible glsl = true) :
          Ends (do
            let s : Struct := ⟨← Numbering.next, group, v.name, v.fields, matrix, js, glsl⟩
            return s :: (← declareAfter matrix group (first.getD s) vs)) ids
            (Declared P matrix group first (v :: vs) ids)
            (fun f ids' => ids.next ≤ ids'.next ∧ B f) := by
        refine Ends.bind (Ends.bind ?_)
        refine (ih _ (fun w hw => valid w (by simp [hw])) (fun w hw => refused w (by simp [hw]))
          ⟨ids.next + 1⟩).mono ?_ ?_
        · intro ss ids' declared
          refine declared.cons ⟨le_rfl, Nat.lt_succ_self _, rfl, rfl, rfl, rfl, made, ?_⟩ rfl ?_
          · exact valid v (by simp)
          · rintro f found (_ | _)
            · exact (same f found).1
            · exact (same f found).2
        · rintro f ids' ⟨grown, harmless⟩
          exact ⟨Nat.le_of_succ_le grown, harmless⟩
      cases first with
      | none => exact rest (by simp)
      | some f =>
        refine Ends.bind (Ends.lift ((checkShared_gives f v.name js .js problem).mono ?_ ?_))
        · intro _ js_fits
          refine Ends.bind (Ends.lift ((checkShared_gives f v.name glsl .glsl problem).mono ?_ ?_))
          · intro _ glsl_fits
            refine rest ?_
            rintro g ⟨⟩
            exact ⟨js_fits, glsl_fits⟩
          · exact fun g harmless => ⟨le_rfl, harmless⟩
        · exact fun g harmless => ⟨le_rfl, harmless⟩

theorem declareGroup_run {B : Failure → Prop} (problem : ∀ p, B (.problem p))
    (vs : List Variant) (valid : ∀ v ∈ vs, ∀ f ∈ v.fields, P f.ty) (ids : Ids)
    (refused : ∀ v ∈ vs, ∀ f, layoutsOf v matrix ids.next = .error f → B f) :
    Ends (declareGroup vs matrix) ids (Declared P matrix ids.next none vs ⟨ids.next + 1⟩)
      (fun f ids' => ids.next ≤ ids'.next ∧ B f) := by
  refine Ends.bind ?_
  refine (declareAfter_ends problem none vs valid refused ⟨ids.next + 1⟩).mono (fun _ _ => id) ?_
  rintro f ids' ⟨grown, harmless⟩
  exact ⟨Nat.le_of_succ_le grown, harmless⟩

theorem declared_of_ok {vs : List Variant} (valid : ∀ v ∈ vs, ∀ f ∈ v.fields, P f.ty)
    {ids ids' : Ids} {ss : List Struct} (run : declareGroup vs matrix ids = .ok ss ids') :
    Declared P matrix ids.next none vs ⟨ids.next + 1⟩ ss ids' :=
  (declareGroup_run (B := fun _ => True) (fun _ => trivial) vs valid ids
    fun _ _ _ _ => trivial).ok run

theorem declare_run {B : Failure → Prop} (problem : ∀ p, B (.problem p)) (v : Variant)
    (valid : ∀ f ∈ v.fields, P f.ty) (ids : Ids)
    (refused : ∀ f, layoutsOf v matrix ids.next = .error f → B f) :
    Ends (declare v matrix) ids
      (fun s => Declared P matrix ids.next none [v] ⟨ids.next + 1⟩ [s])
      (fun f ids' => ids.next ≤ ids'.next ∧ B f) := by
  refine Ends.bind ((declareGroup_run problem [v] (by simpa using valid) ids
    (by simpa using refused)).mono ?_ fun _ _ => id)
  intro ss ids' declared
  obtain ⟨_, news, _⟩ := id declared
  cases news with
  | cons _ none_left =>
    cases none_left
    exact declared

end Declared

end Struct

namespace Known

def add (K : Known) (ss : List Struct) : Known := fun s => K s ∨ s ∈ ss

def Below (K : Known) (n : Nat) : Prop := ∀ s, K s → s.uid < n ∧ s.group < n

theorem subset_add (K : Known) (ss : List Struct) (s : Struct) (known : K s) : K.add ss s :=
  .inl known

theorem Below.mono {K : Known} {m n : Nat} (below : K.Below m) (less : m ≤ n) : K.Below n :=
  fun s known => ⟨(below s known).1.trans_le less, (below s known).2.trans_le less⟩

/-- A set hangs together when a group declared after it is added. -/
theorem Closed.add {K : Known} (closed : K.Closed) {matrix : Bool} {vs : List Variant}
    {ss : List Struct} {ids ids' : Ids} (below : K.Below ids.next)
    (declared : Struct.Declared (Ty.Over K) matrix ids.next none vs ⟨ids.next + 1⟩ ss ids') :
    (K.add ss).Closed := by
  have new (s : Struct) (member : s ∈ ss) :
      ∃ v, Struct.New (Ty.Over K) matrix ids.next (ids.next + 1) ids'.next v s := by
    obtain ⟨v, _, h⟩ := declared.new member
    exact ⟨v, h⟩
  refine ⟨?_, ?_, ?_, ?_⟩
  · rintro s t (hs | hs) (ht | ht) same
    · exact closed.unique s t hs ht same
    · obtain ⟨_, h⟩ := new t ht
      have lower := h.above
      have upper := (below s hs).1
      omega
    · obtain ⟨_, h⟩ := new s hs
      have lower := h.above
      have upper := (below t ht).1
      omega
    · have injective : (ss.map Struct.uid).Nodup := declared.ordered.imp fun h => Nat.ne_of_lt h
      exact List.inj_on_of_nodup_map injective hs ht same
  · rintro s (hs | hs)
    · exact closed.laid s hs
    · obtain ⟨_, h⟩ := new s hs
      exact h.laid
  · rintro s (hs | hs) f member
    · exact (closed.fields s hs f member).mono (K.subset_add ss)
    · obtain ⟨_, h⟩ := new s hs
      exact (h.fields f member).mono (K.subset_add ss)
  · rintro s t (hs | hs) (ht | ht) same
    · exact closed.void_group s t hs ht same
    · obtain ⟨_, h⟩ := new t ht
      have upper := (below s hs).2
      rw [same, h.group_eq] at upper
      omega
    · obtain ⟨_, h⟩ := new s hs
      have upper := (below t ht).2
      rw [← same, h.group_eq] at upper
      omega
    · cases ss with
      | nil => cases hs
      | cons first rest =>
        have void := fun u member => (declared.alike first rfl u member).isVoid
        rw [← void s hs, ← void t ht]

theorem Below.add {K : Known} {matrix : Bool} {vs : List Variant} {ss : List Struct}
    {ids ids' : Ids} (below : K.Below ids.next)
    (declared : Struct.Declared (Ty.Over K) matrix ids.next none vs ⟨ids.next + 1⟩ ss ids') :
    (K.add ss).Below ids'.next := by
  obtain ⟨grown, news, _⟩ := declared
  simp only at grown
  rintro s (hs | hs)
  · have old := below s hs
    omega
  · obtain ⟨_, _, h⟩ := exists_left_of_forall₂ news hs
    have upper := h.below
    have group := h.group_eq
    omega

end Known

namespace Struct

variable {K : Known}

theorem declareGroup_ends (closed : K.Closed) (matrix : Bool) (vs : List Variant)
    (valid : ∀ v ∈ vs, ∀ f ∈ v.fields, f.ty.Over K) (ids : Ids) :
    Ends (declareGroup vs matrix) ids
      (Declared (Ty.Over K) matrix ids.next none vs ⟨ids.next + 1⟩)
      (fun f ids' => ids.next ≤ ids'.next ∧ ¬ f.IsDefect) :=
  declareGroup_run not_isDefect_problem vs valid ids fun v listed _ =>
    layoutsOf_error closed.grounded (valid v listed)

theorem declare_ends (closed : K.Closed) (matrix : Bool) (v : Variant)
    (valid : ∀ f ∈ v.fields, f.ty.Over K) (ids : Ids) :
    Ends (declare v matrix) ids
      (fun s => Declared (Ty.Over K) matrix ids.next none [v] ⟨ids.next + 1⟩ [s])
      (fun f ids' => ids.next ≤ ids'.next ∧ ¬ f.IsDefect) :=
  declare_run not_isDefect_problem v valid ids fun _ => layoutsOf_error closed.grounded valid

end Struct
end Ember
