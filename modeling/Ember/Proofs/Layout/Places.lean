import Ember.Proofs.Layout
import Ember.Proofs.Physical

/-!
# Building a struct and reading its fields

`Layout.build?` is what the constructor of a layout makes of the fields that are kept, and
`Accessor.read?` what is found at the place of a field. Constructors of GLSL are known by their
names: a vector takes the components of its arguments one after the other and makes all of them of
its kind, and a matrix cuts them into columns. Whichever way fields are kept, a struct and its
fields determine each other.
-/

set_option autoImplicit false

namespace Ember

/-! ## Values by what they are made of -/

def Scalar.toKind : ScalarKind → Scalar → Scalar
  | .float, .int n => .float n.toFloat32
  | .float, .bool b => .float (if b then 1 else 0)
  | .int, .float x => .int x.toInt32
  | .int, .bool b => .int (if b then 1 else 0)
  | .bool, .float x => .bool (x != 0)
  | .bool, .int n => .bool (n != 0)
  | _, s => s

theorem Scalar.toKind_of_kind {k : ScalarKind} {x : Scalar} (kind : x.kind = k) :
    x.toKind k = x := by
  subst kind
  cases x <;> rfl

/-- A value that is kept so. What keeps nothing is the empty record, and a matrix is the record of
its columns. The slots of a struct are a matter of its layout. -/
def Storage.Holds : Storage → Physical Scalar → Prop
  | .void, p => p = .record []
  | .vector k w, p => ∃ xs, p = .vector xs ∧ xs.length = w ∧ ∀ x ∈ xs, x.kind = k
  | .matrix cols rows, p => ∃ xss : List (List Scalar), p = .record (xss.map .vector) ∧
      xss.length = cols ∧ ∀ xs ∈ xss, xs.length = rows ∧ ∀ x ∈ xs, x.kind = .float
  | .struct _, p => ∃ ps, p = .record ps
  | .array of len, p => ∃ ps, p = .record ps ∧ ps.length = len ∧ ∀ q ∈ ps, of.Holds q

/-! ## Constructors -/

namespace Physical

def vectorOf? (k : ScalarKind) (width : Nat) (ps : List (Physical Scalar)) :
    Option (Physical Scalar) := do
  let xs ← (← merge? width ps).parts?
  return .vector (xs.map (Scalar.toKind k))

def cut {α : Type} (rows : Nat) : Nat → List α → List (List α)
  | 0, _ => []
  | cols + 1, xs => xs.take rows :: cut rows cols (xs.drop rows)

def matrixOf? (cols rows : Nat) (ps : List (Physical Scalar)) : Option (Physical Scalar) := do
  let xs := (← ps.mapM parts?).flatten
  if xs.length = cols * rows then
    return .record ((cut rows cols (xs.map (Scalar.toKind .float))).map .vector)
  else none

def matrixShapes : List (Nat × Nat) := [2, 3, 4].flatMap fun c => [2, 3, 4].map fun r => (c, r)

/-- What a constructor makes of its arguments. A name of no vector or matrix is that of a struct,
which takes an argument for each of its members. -/
def ofCall? (fn : String) (members : Nat) (ps : List (Physical Scalar)) :
    Option (Physical Scalar) :=
  match Prelude.vectorShapes.find? (fun shape => (Storage.vector shape.1 shape.2).glslName == fn),
      matrixShapes.find? (fun shape => (Storage.matrix shape.1 shape.2).glslName == fn) with
  | some (k, w), _ => vectorOf? k w ps
  | none, some (cols, rows) => matrixOf? cols rows ps
  | none, none => if ps.length = members then some (.record ps) else none

theorem cut_flatten {α : Type} {rows : Nat} {xss : List (List α)}
    (heights : ∀ xs ∈ xss, xs.length = rows) : cut rows xss.length xss.flatten = xss := by
  induction xss with
  | nil => rfl
  | cons xs xss ih =>
    have height := heights xs (by simp)
    simp only [List.length_cons, List.flatten_cons, cut]
    rw [List.take_left' height, List.drop_left' height,
      ih fun ys member => heights ys (by simp [member])]

theorem length_flatten_of_heights {α : Type} {rows : Nat} {xss : List (List α)}
    (heights : ∀ xs ∈ xss, xs.length = rows) : xss.flatten.length = xss.length * rows := by
  rw [List.length_flatten, List.eq_replicate_of_mem (a := rows) (l := xss.map List.length)]
  · simp
  · simpa using heights

theorem map_toKind {k : ScalarKind} {xs : List Scalar} (kinds : ∀ x ∈ xs, x.kind = k) :
    xs.map (Scalar.toKind k) = xs := by
  rw [List.map_congr_left fun x member => Scalar.toKind_of_kind (kinds x member), List.map_id']

theorem ofCall?_vector {k : ScalarKind} {w : Nat} (width : 2 ≤ w ∧ w ≤ 4) (members : Nat)
    (ps : List (Physical Scalar)) :
    ofCall? (Storage.vector k w).glslName members ps = vectorOf? k w ps := by
  have named : Prelude.vectorShapes.find? (fun shape => (Storage.vector shape.1 shape.2).glslName ==
      (Storage.vector k w).glslName) = some (k, w) := by
    obtain rfl | rfl | rfl : w = 2 ∨ w = 3 ∨ w = 4 := by omega
    all_goals cases k <;> decide
  simp only [ofCall?, named]

theorem ofCall?_matrix {cols rows : Nat} (width : 2 ≤ cols ∧ cols ≤ 4)
    (height : 2 ≤ rows ∧ rows ≤ 4) (members : Nat) (ps : List (Physical Scalar)) :
    ofCall? (Storage.matrix cols rows).glslName members ps = matrixOf? cols rows ps := by
  have named : Prelude.vectorShapes.find? (fun shape => (Storage.vector shape.1 shape.2).glslName ==
        (Storage.matrix cols rows).glslName) = none ∧
      matrixShapes.find? (fun shape => (Storage.matrix shape.1 shape.2).glslName ==
        (Storage.matrix cols rows).glslName) = some (cols, rows) := by
    obtain rfl | rfl | rfl : cols = 2 ∨ cols = 3 ∨ cols = 4 := by omega
    all_goals obtain rfl | rfl | rfl : rows = 2 ∨ rows = 3 ∨ rows = 4 := by omega
    all_goals decide
  simp only [ofCall?, named.1, named.2]

theorem ofCall?_struct (id : Nat) (ps : List (Physical Scalar)) :
    ofCall? (Storage.structName id) ps.length ps = some (.record ps) := by
  have start : (Storage.structName id).toList.head? = some '_' := by simp [Storage.structName]
  -- no other name starts with an underscore
  have vectors : ∀ shape ∈ Prelude.vectorShapes,
      (Storage.vector shape.1 shape.2).glslName.toList.head? ≠ some '_' := by decide
  have matrices : ∀ shape ∈ matrixShapes,
      (Storage.matrix shape.1 shape.2).glslName.toList.head? ≠ some '_' := by decide
  have no_vector : Prelude.vectorShapes.find? (fun shape =>
      (Storage.vector shape.1 shape.2).glslName == Storage.structName id) = none :=
    List.find?_eq_none.mpr fun shape member same =>
      vectors shape member (by rw [beq_iff_eq.mp same, start])
  have no_matrix : matrixShapes.find? (fun shape =>
      (Storage.matrix shape.1 shape.2).glslName == Storage.structName id) = none :=
    List.find?_eq_none.mpr fun shape member same =>
      matrices shape member (by rw [beq_iff_eq.mp same, start])
  simp only [ofCall?, no_vector, no_matrix, if_true]

theorem vectorOf?_vectors {k : ScalarKind} {xss : List (List Scalar)} (several : 2 ≤ xss.length)
    (kinds : ∀ x ∈ xss.flatten, x.kind = k) :
    vectorOf? k xss.flatten.length (xss.map vector) = some (.vector xss.flatten) := by
  rw [vectorOf?, merge?_vectors several]
  simp [parts?, map_toKind kinds]

theorem matrixOf?_columns {rows : Nat} {xss : List (List Scalar)}
    (columns : ∀ xs ∈ xss, xs.length = rows ∧ ∀ x ∈ xs, x.kind = .float) :
    matrixOf? xss.length rows (xss.map vector) = some (.record (xss.map vector)) := by
  have heights : ∀ xs ∈ xss, xs.length = rows := fun xs member => (columns xs member).1
  have kinds : ∀ x ∈ xss.flatten, x.kind = .float := by
    intro x member
    obtain ⟨xs, column, inside⟩ := List.mem_flatten.mp member
    exact (columns xs column).2 x inside
  rw [matrixOf?, mapM_parts?_vectors]
  simp only [Option.bind_eq_bind, Option.bind_some, length_flatten_of_heights heights, if_true,
    map_toKind kinds, cut_flatten heights, Option.pure_def]

end Physical

/-! ## Fields -/

/-- What is found at a place. Where nothing is kept, nothing is found. -/
def Accessor.read? : Accessor → Physical Scalar → Option (Physical Scalar)
  | .zero, _ => none
  | .identity, p => some p
  | .swizzle letters, p => p.swizzle? letters.toList
  | .column i, p | .slot i, p => p.slot? i

def Accessor.components : Accessor → List Nat
  | .swizzle letters => letters.toList.map fun c => ['x', 'y', 'z', 'w'].idxOf c
  | _ => []

namespace Layout

variable {l : Layout} {fields : List Storage}

/-- Of something for every field, that for the fields that are kept. -/
def stored {β : Type} (l : Layout) (bs : List β) : List β :=
  ((bs.zip l.accessors).filter fun p => p.2 != .zero).map (·.1)

def build? (l : Layout) (ps : List (Physical Scalar)) : Option (Physical Scalar) :=
  match l.builder, ps with
  | .unit, [] => some (.record [])
  | .forward, [p] => some p
  | .call fn, ps => Physical.ofCall? fn l.slots.length ps
  | .record, ps => some (.record ps)
  | _, _ => none

def read? (l : Layout) (p : Physical Scalar) : Option (List (Physical Scalar)) :=
  (l.accessors.filter (· != .zero)).mapM fun a => a.read? p

/-- A struct that is kept so, with its slots. -/
def Holds (l : Layout) (p : Physical Scalar) : Prop :=
  l.storage.Holds p ∧
    (l.path = .struct → ∃ ps, p = .record ps ∧ List.Forall₂ Storage.Holds l.slots ps)

/-! ## Every way leads back -/

/-- Values of vectors of one kind are lists of components. -/
theorem vectors_of_holds {k : ScalarKind} {ws : List Nat} {qs : List (Physical Scalar)}
    (holds : List.Forall₂ Storage.Holds (ws.map (.vector k)) qs) :
    ∃ xss : List (List Scalar), qs = xss.map .vector ∧ xss.map List.length = ws ∧
      ∀ xs ∈ xss, ∀ x ∈ xs, x.kind = k := by
  induction ws generalizing qs with
  | nil =>
    cases holds
    exact ⟨[], rfl, rfl, by simp⟩
  | cons w ws ih =>
    cases holds with
    | cons first rest =>
      obtain ⟨xs, rfl, length, kinds⟩ := first
      obtain ⟨xss, rfl, lengths, others⟩ := ih rest
      exact ⟨xs :: xss, rfl, by simp [length, lengths], List.forall_mem_cons.mpr ⟨kinds, others⟩⟩

theorem holds_of_vectors {k : ScalarKind} {xss : List (List Scalar)}
    (kinds : ∀ xs ∈ xss, ∀ x ∈ xs, x.kind = k) :
    List.Forall₂ Storage.Holds ((xss.map List.length).map (.vector k)) (xss.map .vector) := by
  simp only [List.map_map, List.forall₂_map_left_iff, List.forall₂_map_right_iff,
    List.forall₂_same]
  exact fun xs member => ⟨xs, rfl, rfl, kinds xs member⟩

theorem kinds_flatten {k : ScalarKind} {xss : List (List Scalar)}
    (kinds : ∀ xs ∈ xss, ∀ x ∈ xs, x.kind = k) : ∀ x ∈ xss.flatten, x.kind = k := by
  intro x member
  obtain ⟨xs, part, inside⟩ := List.mem_flatten.mp member
  exact kinds xs part x inside

theorem read?_record {place : Nat → Accessor} {ps : List (Physical Scalar)}
    (slot : ∀ i, (place i).read? (.record ps) = ps[i]?) :
    List.Forall₂ (fun a q => Accessor.read? a (.record ps) = some q)
      ((List.range ps.length).map place) ps := by
  refine List.forall₂_iff_get.mpr ⟨by simp, fun i _ inside => ?_⟩
  simp [slot]

theorem build?_call {fn : String} (built : l.builder = .call fn) (ps : List (Physical Scalar)) :
    l.build? ps = Physical.ofCall? fn l.slots.length ps := by
  simp only [build?, built]

theorem build?_vectors {k : ScalarKind} {xss : List (List Scalar)}
    (built : l.builder = .call (Storage.vector k xss.flatten.length).glslName)
    (several : 2 ≤ xss.length) (width : 2 ≤ xss.flatten.length ∧ xss.flatten.length ≤ 4)
    (kinds : ∀ xs ∈ xss, ∀ x ∈ xs, x.kind = k) :
    l.build? (xss.map .vector) = some (.vector xss.flatten) := by
  rw [build?_call built, Physical.ofCall?_vector width]
  exact Physical.vectorOf?_vectors several (kinds_flatten kinds)

theorem build?_columns {rows : Nat} {xss : List (List Scalar)}
    (built : l.builder = .call (Storage.matrix xss.length rows).glslName)
    (width : 2 ≤ xss.length ∧ xss.length ≤ 4) (height : 2 ≤ rows ∧ rows ≤ 4)
    (columns : ∀ xs ∈ xss, xs.length = rows ∧ ∀ x ∈ xs, x.kind = .float) :
    l.build? (xss.map .vector) = some (.record (xss.map .vector)) := by
  rw [build?_call built, Physical.ofCall?_matrix width height]
  exact Physical.matrixOf?_columns columns

theorem build?_slots {target : Target} {id : Nat} {qs : List (Physical Scalar)}
    (built : target = .js ∧ l.builder = .record ∨
      target = .glsl ∧ l.builder = .call (Storage.structName id))
    (count : l.slots.length = qs.length) : l.build? qs = some (.record qs) := by
  rcases built with ⟨_, record⟩ | ⟨_, call⟩
  · simp only [build?, record]
  · rw [build?_call call, count]
    exact Physical.ofCall?_struct id qs

namespace Way

variable {matrix : Bool} {target : Target} {id : Nat} {stored : List Storage} {as : List Accessor}

/-- What is built is kept as the layout says, and its fields are read where they are. -/
theorem build {qs : List (Physical Scalar)} (way : Way matrix target id stored as l)
    (holds : List.Forall₂ Storage.Holds stored qs) :
    ∃ p, l.build? qs = some p ∧ l.Holds p ∧
      List.Forall₂ (fun a q => Accessor.read? a p = some q) as qs := by
  cases way with
  | void =>
    cases holds
    exact ⟨.record [], rfl, ⟨rfl, by simp⟩, .nil⟩
  | transparent s =>
    cases holds with
    | cons own rest =>
      cases rest
      exact ⟨_, rfl, ⟨own, by simp⟩, .cons rfl .nil⟩
  | vectorMerge _ _ k ws several width =>
    obtain ⟨xss, rfl, rfl, kinds⟩ := vectors_of_holds holds
    rw [← List.length_flatten] at width ⊢
    refine ⟨.vector xss.flatten, build?_vectors rfl (by simpa using several) width kinds,
      ⟨⟨_, rfl, rfl, kinds_flatten kinds⟩, by simp⟩, ?_⟩
    exact Physical.forall₂_swizzles [] xss width.1 width.2 fun _ _ found => found
  | matrix _ cols rows width height =>
    have vectors : List.replicate cols (Storage.vector .float rows) =
        (List.replicate cols rows).map (.vector .float) := by simp
    rw [vectors] at holds
    obtain ⟨xss, rfl, lengths, kinds⟩ := vectors_of_holds holds
    obtain rfl : xss.length = cols := by simpa using congrArg List.length lengths
    have columns : ∀ xs ∈ xss, xs.length = rows ∧ ∀ x ∈ xs, x.kind = .float := by
      refine fun xs member => ⟨?_, kinds xs member⟩
      exact (List.eq_replicate_iff.mp lengths).2 _ (List.mem_map_of_mem member)
    refine ⟨.record (xss.map .vector), build?_columns rfl width height columns,
      ⟨⟨xss, rfl, rfl, columns⟩, by simp⟩, ?_⟩
    rw [← List.length_map (f := Physical.vector)]
    exact read?_record fun _ => rfl
  | struct _ built =>
    refine ⟨.record qs, build?_slots built holds.length_eq,
      ⟨⟨qs, rfl⟩, fun _ => ⟨qs, rfl, holds⟩⟩, ?_⟩
    rw [holds.length_eq]
    exact read?_record fun _ => rfl

/-- What is kept as the layout says is built of fields. -/
theorem exists_stored {p : Physical Scalar} (way : Way matrix target id stored as l)
    (holds : l.Holds p) :
    ∃ qs, List.Forall₂ Storage.Holds stored qs ∧ l.build? qs = some p := by
  obtain ⟨own, slots⟩ := holds
  cases way with
  | void =>
    obtain rfl : p = .record [] := own
    exact ⟨[], .nil, rfl⟩
  | transparent s => exact ⟨[p], .cons own .nil, rfl⟩
  | vectorMerge _ _ k ws several width =>
    obtain ⟨xs, rfl, length, kinds⟩ := own
    -- the components, shared out among the fields
    have parts : (ws.splitLengths xs).flatten = xs := List.flatten_splitLengths _ _ length.le
    have lengths : (ws.splitLengths xs).map List.length = ws :=
      List.map_splitLengths_length _ _ length.ge
    generalize ws.splitLengths xs = xss at parts lengths
    subst parts lengths
    have own : ∀ xs ∈ xss, ∀ x ∈ xs, x.kind = k := fun xs member x inside =>
      kinds x (List.mem_flatten.mpr ⟨xs, member, inside⟩)
    rw [← List.length_flatten] at width
    exact ⟨xss.map .vector, holds_of_vectors own,
      build?_vectors (by rw [List.length_flatten]) (by simpa using several) width own⟩
  | matrix _ cols rows width height =>
    obtain ⟨xss, rfl, rfl, columns⟩ := own
    refine ⟨xss.map .vector, ?_, build?_columns rfl width height columns⟩
    have vectors := holds_of_vectors (k := .float) fun xs member => (columns xs member).2
    have heights : xss.map List.length = List.replicate xss.length rows :=
      List.eq_replicate_iff.mpr ⟨by simp, by simpa using fun xs member => (columns xs member).1⟩
    rwa [heights, List.map_replicate] at vectors
  | struct _ built =>
    obtain ⟨qs, rfl, each⟩ := slots rfl
    exact ⟨qs, each, build?_slots built each.length_eq⟩

end Way

/-! ## Fields that keep nothing -/

theorem filter_place {fields : List Storage} {as : List Accessor}
    (enough : as.length = (fields.filter fun f => !f.isVoid).length) (real : Accessor.zero ∉ as) :
    (place fields as).filter (· != .zero) = as := by
  induction fields generalizing as with
  | nil => exact (List.length_eq_zero_iff.mp enough).symm
  | cons f fs ih =>
    by_cases void : f.isVoid = true
    · simp only [place, void, if_true]
      simpa using ih (by simpa [void] using enough) real
    · cases as with
      | nil => simp [void] at enough
      | cons a as =>
        simp only [List.mem_cons, not_or] at real
        simp only [place, void, Bool.false_eq_true, if_false]
        rw [List.filter_cons_of_pos (by simpa using Ne.symm real.1),
          ih (by simpa [void] using enough) real.2]

theorem stored_holds {vs : List (Physical Scalar)} {as : List Accessor} (places : Places fields as)
    (holds : List.Forall₂ Storage.Holds fields vs) :
    List.Forall₂ Storage.Holds (fields.filter fun f => !f.isVoid)
      (((vs.zip as).filter fun p => p.2 != .zero).map (·.1)) := by
  induction places generalizing vs with
  | nil =>
    cases holds
    exact .nil
  | @cons f a fs as own places ih =>
    cases holds with
    | cons first rest =>
      by_cases void : f = .void
      · simpa [void, own.mpr void] using ih rest
      · have kept : a ≠ .zero := fun zero => void (own.mp zero)
        rw [List.filter_cons_of_pos (by simpa using void), List.zip_cons_cons,
          List.filter_cons_of_pos (by simpa using kept)]
        exact .cons first (ih rest)

theorem forall₂_of_stored {β : Type} {R : Accessor → β → Prop} {as : List Accessor} {bs : List β}
    (lengths : as.length = bs.length)
    (h : List.Forall₂ R (as.filter (· != .zero))
      (((bs.zip as).filter fun p => p.2 != .zero).map (·.1))) :
    List.Forall₂ (fun a b => a ≠ .zero → R a b) as bs := by
  induction as generalizing bs with
  | nil =>
    obtain rfl := List.length_eq_zero_iff.mp lengths.symm
    exact .nil
  | cons a as ih =>
    cases bs with
    | nil => simp at lengths
    | cons b bs =>
      have rest : as.length = bs.length := by simpa using lengths
      by_cases zero : a = .zero
      · exact .cons (fun kept => absurd zero kept) (ih rest (by simpa [zero] using h))
      · have both : R a b ∧ List.Forall₂ R (as.filter (· != .zero))
            (((bs.zip as).filter fun p => p.2 != .zero).map (·.1)) := by simpa [zero] using h
        exact .cons (fun _ => both.1) (ih rest both.2)

theorem mapM_of_forall₂ {ι β : Type} {f : ι → Option β} {is : List ι} {bs : List β}
    (h : List.Forall₂ (fun i b => f i = some b) is bs) : is.mapM f = some bs := by
  induction h with
  | nil => rfl
  | cons first _ ih => simp [first, ih]

/-! ## The components of a merged vector -/

theorem components_letters {offset width : Nat} (inside : offset + width ≤ 4) :
    (Accessor.swizzle (letters offset width)).components = List.range' offset width := by
  have bounds : offset ≤ 4 ∧ width ≤ 4 := by omega
  obtain ⟨h, h'⟩ := bounds
  interval_cases offset <;> interval_cases width <;> first | omega | decide

theorem components_swizzles {offset : Nat} {ws : List Nat} (inside : offset + ws.sum ≤ 4) :
    (swizzles offset ws).flatMap Accessor.components = List.range' offset ws.sum := by
  induction ws generalizing offset with
  | nil => rfl
  | cons w ws ih =>
    rw [List.sum_cons] at inside ⊢
    rw [swizzles, List.flatMap_cons, components_letters (by omega), ih (by omega),
      List.range'_append_1]

theorem Way.components {matrix : Bool} {target : Target} {id : Nat} {stored : List Storage}
    {as : List Accessor} (way : Way matrix target id stored as l) (merged : l.path = .vectorMerge) :
    ∃ k w, l.storage = .vector k w ∧ as.flatMap Accessor.components = List.range w := by
  cases way with
  | vectorMerge _ _ k ws several width =>
    refine ⟨k, ws.sum, rfl, ?_⟩
    rw [components_swizzles (by omega), List.range_eq_range']
  | void => cases merged
  | transparent s => cases merged
  | matrix => cases merged
  | struct => cases merged

theorem flatMap_components_place {fields : List Storage} {as : List Accessor}
    (enough : as.length = (fields.filter fun f => !f.isVoid).length) :
    (place fields as).flatMap Accessor.components = as.flatMap Accessor.components := by
  induction fields generalizing as with
  | nil =>
    obtain rfl := List.length_eq_zero_iff.mp enough
    rfl
  | cons f fs ih =>
    by_cases void : f.isVoid = true
    · simpa [place, void, Accessor.components] using ih (by simpa [void] using enough)
    · cases as with
      | nil => simp [void] at enough
      | cons a as => simpa [place, void] using ih (by simpa [void] using enough)

/-- What a layout builds of its fields, and where each of them is found again. -/
theorem exists_build {matrix : Bool} {target : Target} {id : Nat} {vs : List (Physical Scalar)}
    (made : ofFields fields matrix target id = .ok l)
    (holds : List.Forall₂ Storage.Holds fields vs) :
    ∃ p, l.build? (l.stored vs) = some p ∧ l.Holds p ∧
      List.Forall₂ (fun a v => a ≠ .zero → Accessor.read? a p = some v) l.accessors vs ∧
      l.read? p = some (l.stored vs) := by
  have places := (ofFields_fits made).places
  obtain ⟨as, accessors, way⟩ := ofFields_way made
  obtain ⟨count, real⟩ := way.places
  obtain ⟨p, built, own, reads⟩ := way.build (stored_holds places holds)
  rw [← filter_place count real, ← accessors] at reads
  have lengths : l.accessors.length = vs.length := places.length_eq.symm.trans holds.length_eq
  exact ⟨p, built, own, forall₂_of_stored lengths reads, mapM_of_forall₂ reads⟩

/-- Fields and struct determine each other, whichever way the fields are kept. Only a field that
keeps nothing has no place. What is built of the fields is read field by field at their places, and
what is read of a struct builds it again. The fields of a merged vector share its components from
the first to the last. -/
theorem read_build {matrix : Bool} {target : Target} {id : Nat}
    (made : ofFields fields matrix target id = .ok l) :
    List.Forall₂ (fun f a => a = .zero ↔ f = .void) fields l.accessors ∧
    (∀ vs : List (Physical Scalar), List.Forall₂ Storage.Holds fields vs →
      ∃ p, l.build? (l.stored vs) = some p ∧ l.Holds p ∧
        (∀ (i : Nat) (f : Storage) (v : Physical Scalar) (a : Accessor), fields[i]? = some f →
          f ≠ .void → vs[i]? = some v → l.accessors[i]? = some a → a.read? p = some v) ∧
        l.read? p = some (l.stored vs)) ∧
    (∀ p, l.Holds p → ∃ qs, l.read? p = some qs ∧ l.build? qs = some p) ∧
    (l.path = .vectorMerge → ∃ k w, l.storage = .vector k w ∧
      l.accessors.flatMap Accessor.components = List.range w) := by
  have places := (ofFields_fits made).places
  obtain ⟨as, accessors, way⟩ := ofFields_way made
  obtain ⟨count, real⟩ := way.places
  refine ⟨places, fun vs holds => ?_, fun p holds => ?_, fun merged => ?_⟩
  · obtain ⟨p, built, own, each, all⟩ := exists_build made holds
    refine ⟨p, built, own, fun i f v a field nonvoid value place => ?_, all⟩
    obtain ⟨inside, rfl⟩ := List.getElem?_eq_some_iff.mp place
    obtain ⟨inside', rfl⟩ := List.getElem?_eq_some_iff.mp value
    obtain ⟨inside'', rfl⟩ := List.getElem?_eq_some_iff.mp field
    refine each.get inside inside' fun zero => nonvoid ?_
    exact (places.get inside'' inside).mp zero
  · obtain ⟨qs, own, built⟩ := way.exists_stored holds
    obtain ⟨q, again, _, reads⟩ := way.build own
    obtain rfl : p = q := Option.some.inj (built.symm.trans again)
    refine ⟨qs, ?_, built⟩
    rw [read?, accessors, filter_place count real, mapM_of_forall₂ reads]
  · rw [accessors, flatMap_components_place count]
    exact way.components merged

/-- Two numbers, nothing and a number are a vector of three. -/
theorem read_build_merged : ∃ l p,
    ofFields [.vector .int 2, .void, .vector .int 1] false .glsl 7 = .ok l ∧
    l.accessors = [.swizzle "xy", .zero, .swizzle "z"] ∧
    l.build? [.vector [.int 1, .int 2], .vector [.int 3]] = some p ∧
    (Accessor.swizzle "z").read? p = some (.vector [.int 3]) := by
  obtain ⟨l, made, accessors⟩ : ∃ l,
      ofFields [.vector .int 2, .void, .vector .int 1] false .glsl 7 = .ok l ∧
      l.accessors = [.swizzle "xy", .zero, .swizzle "z"] := ⟨_, rfl, rfl⟩
  obtain ⟨p, built, _, reads, _⟩ := (read_build made).2.1
    [.vector [.int 1, .int 2], .record [], .vector [.int 3]]
    (.cons ⟨_, rfl, rfl, by decide⟩ (.cons rfl (.cons ⟨_, rfl, rfl, by decide⟩ .nil)))
  refine ⟨l, p, made, accessors, ?_, ?_⟩
  · simpa [stored, accessors] using built
  · exact reads 2 _ _ _ rfl (by decide) rfl (by rw [accessors]; rfl)

end Layout
end Ember
