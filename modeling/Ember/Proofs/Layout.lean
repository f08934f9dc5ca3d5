import Mathlib
import Ember.Layout

/-!
# What a layout keeps

A field has an accessor of its own exactly if it keeps something, and a struct keeps something
exactly if one of its fields does. Which path was taken matters for neither.
-/

set_option autoImplicit false

namespace Ember

namespace Storage

@[simp]
theorem isVoid_iff (r : Storage) : r.isVoid = true ↔ r = .void := by
  simp [isVoid]

@[simp]
theorem isVoid_eq_false_iff (r : Storage) : r.isVoid = false ↔ r ≠ .void := by
  simp [isVoid]

end Storage

namespace Layout

/-- Fields that keep something have accessors, and the others have none. -/
def Places (fields : List Storage) (as : List Accessor) : Prop :=
  List.Forall₂ (fun f a => a = .zero ↔ f = .void) fields as

theorem place_places (fields : List Storage) (as : List Accessor)
    (enough : (fields.filter fun f => !f.isVoid).length ≤ as.length)
    (real : Accessor.zero ∉ as) : Places fields (place fields as) := by
  induction fields generalizing as with
  | nil => exact .nil
  | cons f fs ih =>
    by_cases void : f.isVoid
    · simp only [place, void, if_true]
      refine .cons (by simpa using void) (ih as ?_ real)
      simpa [void] using enough
    · simp only [place, void]
      cases as with
      | nil => simp [void] at enough
      | cons a rest =>
        simp only [List.mem_cons, not_or] at real
        refine .cons ?_ (ih rest ?_ real.2)
        · simpa [Ne.symm real.1] using void
        · simpa [void] using enough

theorem swizzles_length (offset : Nat) (ws : List Nat) :
    (swizzles offset ws).length = ws.length := by
  induction ws generalizing offset with
  | nil => rfl
  | cons w ws ih => simp [swizzles, ih]

theorem zero_not_mem_swizzles (offset : Nat) (ws : List Nat) :
    Accessor.zero ∉ swizzles offset ws := by
  induction ws generalizing offset with
  | nil => simp [swizzles]
  | cons w ws ih => simp [swizzles, ih]

/-! ## The ways to keep fields -/

/-- The ways to keep fields: what is stored, the places of that, and all the rest of the layout. -/
inductive Way (matrix : Bool) (target : Target) (id : Nat) :
    List Storage → List Accessor → Layout → Prop
  | void {as : List Accessor} : Way matrix target id [] [] ⟨.void, .void, as, .unit, []⟩
  | transparent {as : List Accessor} (s : Storage) :
      Way matrix target id [s] [.identity] ⟨.transparent, s, as, .forward, []⟩
  | vectorMerge {as : List Accessor} (glsl : target = .glsl) (plain : matrix = false)
      (k : ScalarKind) (ws : List Nat) (several : 2 ≤ ws.length) (width : 2 ≤ ws.sum ∧ ws.sum ≤ 4) :
      Way matrix target id (ws.map (.vector k)) (swizzles 0 ws)
        ⟨.vectorMerge, .vector k ws.sum, as, .call (Storage.vector k ws.sum).glslName, []⟩
  | matrix {as : List Accessor} (tagged : matrix = true) (cols rows : Nat)
      (width : 2 ≤ cols ∧ cols ≤ 4) (height : 2 ≤ rows ∧ rows ≤ 4) :
      Way matrix target id (List.replicate cols (.vector .float rows))
        ((List.range cols).map .column)
        ⟨.matrix, .matrix cols rows, as, .call (Storage.matrix cols rows).glslName, []⟩
  | struct {as : List Accessor} {stored : List Storage} {b : Builder} (several : 2 ≤ stored.length)
      (built : target = .js ∧ b = .record ∨ target = .glsl ∧ b = .call (Storage.structName id))
      (apart : target = .glsl → matrix = false ∧
        ∀ k (ws : List Nat), stored = ws.map (.vector k) → ¬ (2 ≤ ws.sum ∧ ws.sum ≤ 4)) :
      Way matrix target id stored ((List.range stored.length).map .slot)
        ⟨.struct, .struct id, as, b, stored⟩

theorem widths?_eq_some {kind : ScalarKind} {stored : List Storage} {ws : List Nat} :
    widths? kind stored = some ws ↔ stored = ws.map (.vector kind) := by
  constructor
  · intro found
    induction stored generalizing ws with
    | nil =>
      cases found
      rfl
    | cons s ss ih =>
      simp only [widths?] at found
      split at found
      · split at found
        · obtain ⟨rest, restFound, rfl⟩ := Option.map_eq_some_iff.mp found
          cases s <;> simp_all [Storage.vector?]
        · cases found
      · cases found
  · rintro rfl
    induction ws with
    | nil => rfl
    | cons w ws ih => simp [widths?, Storage.vector?, ih]

/-- Several fields make one vector if they are vectors of one kind and it is not too wide. -/
theorem merge?_eq_some {fields stored : List Storage} (several : 2 ≤ stored.length) {l : Layout} :
    merge? fields stored = some l ↔ ∃ k, ∃ ws : List Nat, stored = ws.map (.vector k) ∧
      (2 ≤ ws.sum ∧ ws.sum ≤ 4) ∧ l = ⟨.vectorMerge, .vector k ws.sum,
        place fields (swizzles 0 ws), .call (Storage.vector k ws.sum).glslName, []⟩ := by
  constructor
  · intro merged
    unfold merge? at merged
    split at merged
    · cases merged
    split at merged
    · cases merged
    rename_i kind _ _ _ widths found
    dsimp only at merged
    split at merged
    · rename_i width
      exact ⟨kind, widths, widths?_eq_some.mp found, width, (Option.some.inj merged).symm⟩
    · cases merged
  · rintro ⟨k, ws, rfl, width, rfl⟩
    have head : (ws.map (Storage.vector k)).head?.bind Storage.vector? = some (k, ws.headI) := by
      match ws, several with
      | w :: ws, _ => rfl
    have sum : ws.foldr (· + ·) 0 = ws.sum := rfl
    unfold merge?
    simp only [head, widths?_eq_some.mpr rfl, sum, width, and_self, if_true]

theorem columns_of_rows? {col : Nat} {before after : Option Nat} {stored : List Storage}
    (found : rows? col before stored = .ok after) (nonempty : stored ≠ []) :
    ∃ w, after = some w ∧ (2 ≤ w ∧ w ≤ 4) ∧ before.all (· == w) = true ∧
      stored = List.replicate stored.length (.vector .float w) := by
  induction stored generalizing col before with
  | nil => simp at nonempty
  | cons s ss ih =>
    rw [rows?] at found
    split at found
    case h_2 => cases found
    case h_1 w vector =>
      split at found
      case isFalse => cases found
      case isTrue fits =>
        have own : s = .vector .float w := by cases s <;> simp_all [Storage.vector?]
        have bounds : 2 ≤ w ∧ w ≤ 4 := ⟨fits.1, fits.2.1⟩
        cases ss with
        | nil =>
          cases found
          exact ⟨w, rfl, bounds, fits.2.2, by simp [own]⟩
        | cons t ts =>
          obtain ⟨w', rfl, _, same, rest⟩ := ih found (by simp)
          obtain rfl : w = w' := by simpa using same
          refine ⟨w, rfl, bounds, fits.2.2, ?_⟩
          rw [own, rest]
          simp [List.replicate_succ]

theorem ofColumns_way {fields stored : List Storage} {l : Layout} (nonempty : stored ≠ [])
    (target : Target) (id : Nat) (made : ofColumns fields stored = .ok l) :
    ∃ as, l.accessors = place fields as ∧ Way true target id stored as l := by
  unfold ofColumns at made
  cases found : rows? 0 none stored with
  | error f => simp [found, bind, Except.bind] at made
  | ok after =>
    obtain ⟨w, rfl, height, _, columns⟩ := columns_of_rows? found nonempty
    simp only [found, bind, Except.bind, pure, Except.pure] at made
    split at made
    · rename_i width
      cases made
      refine ⟨_, rfl, ?_⟩
      nth_rewrite 1 [columns]
      exact .matrix rfl stored.length w width height
    · cases made

/-- Every layout is one of these. -/
theorem ofFields_way {fields : List Storage} {l : Layout} {matrix : Bool} {target : Target}
    {id : Nat} (made : ofFields fields matrix target id = .ok l) :
    ∃ as, l.accessors = place fields as ∧
      Way matrix target id (fields.filter fun f => !f.isVoid) as l := by
  unfold ofFields at made
  generalize fields.filter (fun f => !f.isVoid) = stored at made ⊢
  match stored with
  | [] =>
    cases made
    exact ⟨_, rfl, .void⟩
  | [only] =>
    cases made
    exact ⟨_, rfl, .transparent only⟩
  | s :: t :: rest =>
    dsimp only at made
    cases target with
    | js =>
      cases made
      exact ⟨_, rfl, .struct (by simp) (.inl ⟨rfl, rfl⟩) (by simp)⟩
    | glsl =>
      cases matrix with
      | true => exact ofColumns_way (by simp) .glsl id made
      | false =>
        cases made
        have several : 2 ≤ (s :: t :: rest).length := by simp
        cases merged : merge? fields (s :: t :: rest) with
        | none =>
          refine ⟨_, rfl, .struct several (.inr ⟨rfl, rfl⟩) fun _ => ⟨rfl, fun k ws same width => ?_⟩⟩
          rw [(merge?_eq_some several).mpr ⟨k, ws, same, width, rfl⟩] at merged
          cases merged
        | some l =>
          obtain ⟨k, ws, same, width, rfl⟩ := (merge?_eq_some several).mp merged
          rw [same] at several ⊢
          exact ⟨_, rfl, .vectorMerge rfl rfl k ws (by simpa using several) width⟩

section Way

variable {matrix : Bool} {target : Target} {id : Nat} {stored : List Storage} {as : List Accessor}
  {l : Layout}

/-- There is a place for each field that is stored. -/
theorem Way.places (way : Way matrix target id stored as l) :
    as.length = stored.length ∧ Accessor.zero ∉ as := by
  cases way with
  | void => simp
  | transparent s => simp
  | vectorMerge _ _ k ws => exact ⟨by simp [swizzles_length], zero_not_mem_swizzles 0 ws⟩
  | matrix _ cols rows => simp
  | struct => simp

theorem Way.void_iff (way : Way matrix target id stored as l) (real : .void ∉ stored) :
    (l.storage = .void ↔ stored = []) ∧ (l.path = .void ↔ stored = []) ∧
      (l.builder = .unit ↔ stored = []) := by
  cases way with
  | void => simp
  | transparent s => simpa using Ne.symm (by simpa using real)
  | vectorMerge _ _ k ws several => cases ws <;> simp at several ⊢
  | matrix _ cols rows width =>
    have some_column : cols ≠ 0 := by omega
    simp [some_column]
  | struct several built =>
    have some_kept : stored ≠ [] := by
      rintro rfl
      simp at several
    rcases built with ⟨_, rfl⟩ | ⟨_, rfl⟩ <;> simp [some_kept]

end Way

structure Fits (l : Layout) (fields : List Storage) : Prop where
  places : Places fields l.accessors
  storage_void : l.storage = .void ↔ ∀ f ∈ fields, f = .void
  path_void : l.path = .void ↔ ∀ f ∈ fields, f = .void
  builder_unit : l.builder = .unit ↔ ∀ f ∈ fields, f = .void

theorem ofFields_fits {fields : List Storage} {matrix : Bool} {target : Target} {id : Nat}
    {l : Layout} (made : ofFields fields matrix target id = .ok l) : l.Fits fields := by
  obtain ⟨as, accessors, way⟩ := ofFields_way made
  have nothing : (fields.filter fun f => !f.isVoid) = [] ↔ ∀ f ∈ fields, f = .void := by
    simp [List.filter_eq_nil_iff]
  have void := way.void_iff (by simp)
  rw [nothing] at void
  refine ⟨?_, void.1, void.2.1, void.2.2⟩
  rw [accessors]
  exact place_places _ _ way.places.1.ge way.places.2

/-! ## Layouts that are not refused -/

theorem vectors_inj {k k' : ScalarKind} {ws ws' : List Nat}
    (same : ws.map (Storage.vector k) = ws'.map (Storage.vector k')) (nonempty : ws' ≠ []) :
    k = k' ∧ ws = ws' := by
  obtain ⟨w', rest', rfl⟩ := List.exists_cons_of_ne_nil nonempty
  cases ws with
  | nil => simp at same
  | cons w rest =>
    simp only [List.map_cons, List.cons.injEq, Storage.vector.injEq] at same
    obtain ⟨⟨rfl, rfl⟩, others⟩ := same
    have inj : Function.Injective (Storage.vector k) := fun a b h => by injection h
    exact ⟨rfl, by rw [List.map_injective_iff.mpr inj others]⟩

/-- Vectors of one kind with at most four components in all are one vector in GLSL. -/
theorem ofFields_vectors {fields : List Storage} {id : Nat} {l : Layout} {kind : ScalarKind}
    {ws : List Nat} (stored : (fields.filter fun f => !f.isVoid) = ws.map (Storage.vector kind))
    (positive : ∀ w ∈ ws, 1 ≤ w) (some_kept : ws ≠ []) (small : ws.sum ≤ 4)
    (made : ofFields fields false .glsl id = .ok l) : l.storage = .vector kind ws.sum := by
  obtain ⟨as, _, way⟩ := ofFields_way made
  generalize fields.filter (fun f => !f.isVoid) = kept at stored way
  cases way with
  | void => simp_all
  | transparent s =>
    match ws, stored with
    | [w], same => simpa using same
  | vectorMerge _ _ k vs several =>
    obtain ⟨rfl, rfl⟩ := vectors_inj stored some_kept
    rfl
  | matrix tagged => cases tagged
  | struct several _ apart =>
    refine absurd ⟨?_, small⟩ ((apart rfl).2 kind ws stored)
    rw [stored, List.length_map] at several
    exact several.trans (List.length_le_sum_of_one_le ws positive)

theorem rows?_columns (col w : Nat) (rows : Option Nat) (count : Nat) (width : 2 ≤ w ∧ w ≤ 4)
    (same : ∀ r ∈ rows, r = w) (some_column : rows = none → 0 < count) :
    rows? col rows (List.replicate count (Storage.vector .float w)) = .ok (some w) := by
  induction count generalizing col rows with
  | zero =>
    cases rows with
    | none => simp at some_column
    | some r => simp [rows?, same r rfl]
  | succ count ih =>
    have rows_fit : rows.all (· == w) = true := by
      cases rows with
      | none => rfl
      | some r => simp [same r rfl]
    simp only [List.replicate_succ, rows?, Storage.vector?, width, rows_fit, and_self, if_true]
    exact ih (col + 1) (some w) (by simp) (by simp)

/-- Two to four columns of one height are a matrix. -/
theorem ofFields_columns {fields : List Storage} {target : Target} {id w count : Nat}
    (stored : target.hasVectors = true →
      (fields.filter fun f => !f.isVoid) = List.replicate count (Storage.vector .float w))
    (width : 2 ≤ w ∧ w ≤ 4) (columns : 2 ≤ count ∧ count ≤ 4) :
    ∃ l, ofFields fields true target id = .ok l := by
  unfold ofFields
  split
  · exact ⟨_, rfl⟩
  · exact ⟨_, rfl⟩
  · by_cases vectors : target.hasVectors
    · simp only [vectors, if_true]
      rw [stored vectors]
      unfold ofColumns
      rw [rows?_columns 0 w none count width (by simp) (by omega)]
      simp only [List.length_replicate, bind, Except.bind, columns, and_self, if_true]
      exact ⟨_, rfl⟩
    · simp only [vectors]
      exact ⟨_, rfl⟩

theorem ofFields_plain (fields : List Storage) (target : Target) (id : Nat) :
    ∃ l, ofFields fields false target id = .ok l := by
  unfold ofFields
  split
  · exact ⟨_, rfl⟩
  · exact ⟨_, rfl⟩
  · split <;> exact ⟨_, rfl⟩

end Layout
end Ember
