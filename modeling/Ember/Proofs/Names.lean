import Ember.Ids
import Ember.Proofs.Atoms
import Ember.Proofs.Types

/-!
# Names in code

Coined names are those that numbers make: a stem or `_t`, and the number. Names of the targets'
own functions have no `_` in them, and names of declared structs are `_S` and a number, so neither
is coined.
-/

set_option autoImplicit false

namespace Ember

/-! ## Coined names -/

namespace Ids

def Coined (x : String) : Prop := ∃ ids : Ids, x = ids.temp.1 ∨ ∃ s, x = (ids.fresh s).1

theorem coined_temp (ids : Ids) : Coined ids.temp.1 := ⟨ids, .inl rfl⟩

theorem coined_fresh (ids : Ids) (s : String) : Coined (ids.fresh s).1 := ⟨ids, .inr ⟨s, rfl⟩⟩

theorem isNameChar_of_isDigit {c : Char} (digit : c.isDigit = true) : isNameChar c = true := by
  simp [isNameChar, Char.isAlphanum, digit]

theorem isPlain_of_isNameChar {c : Char} (h : isNameChar c = true) : Text.isPlain c = true := by
  simp only [isNameChar, Bool.or_eq_true] at h
  rcases h with h | h <;> simp [Text.isPlain, h]

theorem isNameChar_of_mem_stem {s : String} {c : Char} (member : c ∈ stem s) :
    isNameChar c = true := by
  have mapped (d : Char) (h : d ∈ s.toList.map fun c => if isNameChar c then c else '_') :
      isNameChar d = true := by
    obtain ⟨e, _, rfl⟩ := List.mem_map.mp h
    split
    · assumption
    · rfl
  unfold stem at member
  dsimp only at member
  split at member
  · rw [List.mem_singleton.mp member]
    rfl
  · rename_i listed
    split at member
    · rcases List.mem_cons.mp member with rfl | h
      · rfl
      · exact mapped c h
    · exact mapped c member

/-- A coined name ends in a number, which stands after `_` or after `_t`. -/
theorem Coined.ends {x : String} (h : Coined x) : ∃ digits, digits ≠ [] ∧
    (∀ c ∈ digits, c.isDigit = true) ∧ (x.toList = '_' :: 't' :: digits ∨
      ∃ front, x.toList = front ++ '_' :: digits ∧ ∀ c ∈ front, isNameChar c = true) := by
  obtain ⟨ids, rfl | ⟨s, rfl⟩⟩ := h
  · refine ⟨(toString ids.next).toList, Text.toString_ne_nil _,
      fun _ => Text.isDigit_of_mem_toString, .inl ?_⟩
    simp [temp]
  · refine ⟨(toString ids.next).toList, Text.toString_ne_nil _,
      fun _ => Text.isDigit_of_mem_toString, .inr ⟨stem s, ?_, fun _ => isNameChar_of_mem_stem⟩⟩
    simp [fresh]

theorem Coined.isNameChar {x : String} (h : Coined x) {c : Char} (member : c ∈ x.toList) :
    isNameChar c = true := by
  obtain ⟨digits, _, all, text | ⟨front, text, named⟩⟩ := h.ends
  · rw [text] at member
    simp only [List.mem_cons] at member
    rcases member with rfl | rfl | h
    · rfl
    · rfl
    · exact isNameChar_of_isDigit (all c h)
  · rw [text] at member
    simp only [List.mem_append, List.mem_cons] at member
    rcases member with h | rfl | h
    · exact named c h
    · rfl
    · exact isNameChar_of_isDigit (all c h)

theorem Coined.plain {x : String} (h : Coined x) : Text.Plain x :=
  Text.plain_of_forall fun _ member => isPlain_of_isNameChar (h.isNameChar member)

theorem Coined.underscore {x : String} (h : Coined x) : '_' ∈ x.toList := by
  obtain ⟨digits, _, _, text | ⟨front, text, _⟩⟩ := h.ends <;> simp [text]

end Ids

/-! ## Names of structs -/

def Storage.ids : Storage → List Nat
  | .struct id => [id]
  | .array of _ => of.ids
  | .void | .vector _ _ | .matrix _ _ => []

/-- Up to its first bracket, a text is the name of a struct. -/
def NamesStruct (f : String) (id : Nat) : Prop :=
  f.toList.takeWhile (· != '[') = (Storage.structName id).toList

theorem Storage.structName_toList (id : Nat) :
    (structName id).toList = '_' :: 'S' :: (toString id).toList := by
  simp [structName]

namespace NamesStruct

variable {f : String} {id : Nat}

theorem underscore (h : NamesStruct f id) : f.toList.head? = some '_' := by
  rw [NamesStruct, Storage.structName_toList] at h
  cases chars : f.toList with
  | nil => simp [chars] at h
  | cons c cs =>
    rw [chars, List.takeWhile_cons] at h
    split at h
    · simp only [List.cons.injEq] at h
      rw [List.head?_cons, h.1]
    · simp at h

theorem not_coined (h : NamesStruct f id) : ¬ Ids.Coined f := by
  intro coined
  have whole : f.toList.takeWhile (· != '[') = f.toList := by
    refine List.takeWhile_eq_self_iff.mpr fun c member => ?_
    have named := coined.isNameChar member
    simp only [bne_iff_ne, ne_eq]
    rintro rfl
    exact absurd named (by decide)
  rw [NamesStruct, whole, Storage.structName_toList] at h
  have digits {c : Char} (member : c ∈ (toString id).toList) : c.isDigit = true :=
    Text.isDigit_of_mem_toString member
  obtain ⟨ds, _, all, text | ⟨front, text, _⟩⟩ := coined.ends
  · rw [h] at text
    simp at text
  · -- The only `_` is the first character, and what follows it is no number.
    rw [h] at text
    cases front with
    | nil =>
      simp only [List.nil_append, List.cons.injEq, true_and] at text
      exact absurd (all 'S' (by simp [← text])) (by decide)
    | cons c front =>
      simp only [List.cons_append, List.cons.injEq] at text
      cases front with
      | nil =>
        simp only [List.nil_append, List.cons.injEq] at text
        exact absurd text.2.1 (by decide)
      | cons d front =>
        simp only [List.cons_append, List.cons.injEq] at text
        have member : '_' ∈ (toString id).toList := by
          rw [text.2.2]
          simp
        exact absurd (digits member) (by decide)

end NamesStruct

namespace Storage

theorem head?_vector_ne (k : ScalarKind) (w : Nat) :
    (Storage.vector k w).glslName.toList.head? ≠ some '_' := by
  rw [glslName]
  split
  · cases k <;> decide
  · cases k <;> simp [ScalarKind.vectorMark]

/-- A storage that names a struct is made of it. -/
theorem mem_ids_of_namesStruct {r : Storage} {id : Nat} (h : NamesStruct r.glslName id) :
    id ∈ r.ids := by
  induction r with
  | void =>
    have start := h.underscore
    exact absurd start (by decide)
  | vector k w => exact absurd h.underscore (head?_vector_ne k w)
  | matrix c r =>
    have start := h.underscore
    simp [glslName] at start
  | struct other =>
    have whole : (structName other).toList.takeWhile (· != '[') = (structName other).toList := by
      refine List.takeWhile_eq_self_iff.mpr fun c member => ?_
      rw [structName_toList] at member
      simp only [List.mem_cons] at member
      simp only [bne_iff_ne, ne_eq]
      rintro rfl
      rcases member with h | h | h
      · exact absurd h (by decide)
      · exact absurd h (by decide)
      · exact absurd (Text.isDigit_of_mem_toString h) (by decide)
    rw [NamesStruct, glslName, whole, structName_toList, structName_toList] at h
    simp only [List.cons.injEq, true_and] at h
    have same : toString other = toString id := String.toList_inj.mp h
    have equal : other = id := Nat.repr_inj.mp same
    simp [ids, equal]
  | array of len ih =>
    refine ih ?_
    rw [NamesStruct, glslName] at h
    rw [NamesStruct, ← h]
    simp only [String.toList_append, List.append_assoc]
    rw [List.takeWhile_append]
    split
    · rename_i all
      have whole := (List.takeWhile_prefix (fun c : Char => c != '[')).eq_of_length all
      simp [whole]
    · rfl

/-- Names of storages are plain, and none is coined. -/
theorem glslName_plain (r : Storage) : Text.Plain r.glslName := by
  have word (t : String) (h : t.toList.all Text.isPlain = true) := Text.plain_of_all h
  induction r with
  | void => exact word "void" (by decide)
  | vector k w =>
    rw [glslName]
    split
    · cases k <;> exact word _ (by decide)
    · refine .append (.append ?_ (word "vec" (by decide))) (Text.plain_toString w)
      cases k <;> exact word _ (by decide)
  | matrix c r =>
    rw [glslName]
    refine .append (.append (word "mat" (by decide)) (Text.plain_toString c)) ?_
    split
    · exact word "" (by decide)
    · exact .append (word "x" (by decide)) (Text.plain_toString r)
  | struct id => exact .append (word "_S" (by decide)) (Text.plain_toString id)
  | array of len ih =>
    have size := (Text.plain_toString len).balanced.squares
    rw [glslName]
    simpa only [String.append_assoc] using ih.append size

theorem not_coined_glslName (r : Storage) : ¬ Ids.Coined r.glslName := by
  intro coined
  have bracket (c : Char) (member : c ∈ r.glslName.toList) : c ≠ ']' := by
    rintro rfl
    exact absurd (coined.isNameChar member) (by decide)
  cases r with
  | void => exact absurd coined.underscore (by decide)
  | vector k w =>
    have none_ : '_' ∉ (Storage.vector k w).glslName.toList := by
      rw [glslName]
      split
      · cases k <;> decide
      · cases k <;> simp [ScalarKind.vectorMark]
    exact none_ coined.underscore
  | matrix c r =>
    have none_ : '_' ∉ (Storage.matrix c r).glslName.toList := by
      rw [glslName]
      split <;> simp
    exact none_ coined.underscore
  | struct id =>
    have named : NamesStruct (Storage.struct id).glslName id := ?_
    · exact named.not_coined coined
    refine List.takeWhile_eq_self_iff.mpr fun c member => ?_
    have named := coined.isNameChar member
    simp only [bne_iff_ne, ne_eq]
    rintro rfl
    exact absurd named (by decide)
  | array of len => exact bracket ']' (by simp [glslName]) rfl

end Storage

/-! ## The targets' own functions -/

/-- A name without `_`, made of plain characters. -/
def IsNative (f : String) : Prop := (f.toList.all fun c => Text.isPlain c && c != '_') = true

instance (f : String) : Decidable (IsNative f) := inferInstanceAs (Decidable (_ = _))

namespace IsNative

variable {f : String}

theorem plain (h : IsNative f) : Text.Plain f :=
  Text.plain_of_forall fun c member => by
    have each := List.all_eq_true.mp h c member
    simp only [Bool.and_eq_true] at each
    exact each.1

theorem no_underscore (h : IsNative f) : '_' ∉ f.toList := by
  intro member
  have each := List.all_eq_true.mp h '_' member
  simp at each

theorem not_coined (h : IsNative f) : ¬ Ids.Coined f :=
  fun coined => h.no_underscore coined.underscore

theorem not_namesStruct (h : IsNative f) (id : Nat) : ¬ NamesStruct f id :=
  fun names => h.no_underscore (List.mem_of_mem_head? names.underscore)

theorem append {g : String} (hf : IsNative f) (hg : IsNative g) : IsNative (f ++ g) := by
  unfold IsNative at *
  rw [String.toList_append, List.all_append, hf, hg]
  rfl

end IsNative

/-! ## Names in layouts -/

namespace Layout

/-- A struct is built by a call of its storage, and parts of it have plain names. -/
structure Named (l : Layout) : Prop where
  builder : ∀ f, l.builder = .call f → f = l.storage.glslName
  swizzles : ∀ letters, .swizzle letters ∈ l.accessors → Text.Plain letters

theorem mem_place {fields : List Storage} {as : List Accessor} {a : Accessor}
    (member : a ∈ place fields as) : a = .zero ∨ a ∈ as := by
  induction fields generalizing as with
  | nil => simp [place] at member
  | cons f fs ih =>
    rw [place.eq_def] at member
    dsimp only at member
    split at member
    · rcases List.mem_cons.mp member with rfl | h
      · exact .inl rfl
      · exact ih h
    · split at member
      · rcases List.mem_cons.mp member with rfl | h
        · exact .inl rfl
        · exact (ih h).imp_right fun h => by simp at h
      · rcases List.mem_cons.mp member with rfl | h
        · exact .inr (by simp)
        · exact (ih h).imp_right fun h => by simp [h]

theorem letters_plain (offset width : Nat) : Text.Plain (letters offset width) := by
  refine Text.plain_of_forall fun c member => ?_
  rw [letters, String.toList_ofList] at member
  have listed := List.mem_of_mem_drop (List.mem_of_mem_take member)
  simp only [List.mem_cons, List.not_mem_nil, or_false] at listed
  rcases listed with rfl | rfl | rfl | rfl <;> decide

theorem mem_swizzles {offset : Nat} {ws : List Nat} {a : Accessor}
    (member : a ∈ swizzles offset ws) : ∃ from_ width, width ∈ ws ∧
      a = .swizzle (letters from_ width) ∧ from_ + width ≤ offset + ws.sum := by
  induction ws generalizing offset with
  | nil => simp [swizzles] at member
  | cons w ws ih =>
    rw [swizzles] at member
    rw [List.sum_cons]
    rcases List.mem_cons.mp member with rfl | h
    · exact ⟨offset, w, by simp, rfl, by omega⟩
    · obtain ⟨from_, width, listed, same, inside⟩ := ih h
      exact ⟨from_, width, by simp [listed], same, by omega⟩

theorem merge?_named {fields stored : List Storage} {l : Layout}
    (merged : merge? fields stored = some l) : l.Named ∧ l.storage.ids = [] := by
  unfold merge? at merged
  split at merged
  · simp at merged
  split at merged
  · simp at merged
  dsimp only at merged
  split at merged
  · cases Option.some.inj merged
    refine ⟨⟨fun f h => by simpa using h.symm, fun letters member => ?_⟩, rfl⟩
    rcases mem_place member with h | h
    · simp at h
    · obtain ⟨_, _, _, same, _⟩ := mem_swizzles h
      cases same
      exact letters_plain _ _
  · simp at merged

theorem ofColumns_named {fields stored : List Storage} {l : Layout}
    (made : ofColumns fields stored = .ok l) : l.Named ∧ l.storage.ids = [] := by
  unfold ofColumns at made
  cases rows : rows? 0 none stored with
  | error f => simp [rows, bind, Except.bind] at made
  | ok height =>
    cases height with
    | none => simp [rows, bind, Except.bind] at made
    | some height =>
      simp only [rows, bind, Except.bind, pure, Except.pure] at made
      split at made
      · cases made
        refine ⟨⟨fun f h => by simpa using h.symm, fun letters member => ?_⟩, rfl⟩
        rcases mem_place member with h | h
        · simp at h
        · simp at h
      · simp at made

theorem ofSlots_named (fields stored : List Storage) (target : Target) (id : Nat) :
    (ofSlots fields stored target id).Named := by
  refine ⟨fun f h => ?_, fun letters member => ?_⟩
  · cases target with
    | js => simp [ofSlots] at h
    | glsl =>
      simp only [ofSlots, Builder.call.injEq] at h
      rw [← h]
      rfl
  · rcases mem_place member with h | h <;> simp at h

/-- What a layout names, and what it is made of: of its own slots, or of what its fields are made
of. -/
theorem ofFields_named {fields : List Storage} {matrix : Bool} {target : Target} {id : Nat}
    {l : Layout} (made : ofFields fields matrix target id = .ok l) :
    l.Named ∧ ∀ n ∈ l.storage.ids, (n = id ∧ l.declared?.isSome = true) ∨
      ∃ f ∈ fields, n ∈ f.ids := by
  have slots (stored : List Storage) : (ofSlots fields stored target id).Named ∧
      ∀ n ∈ (ofSlots fields stored target id).storage.ids,
        (n = id ∧ (ofSlots fields stored target id).declared?.isSome = true) ∨
          ∃ f ∈ fields, n ∈ f.ids :=
    ⟨ofSlots_named _ _ _ _, fun n member =>
      .inl ⟨by simpa [ofSlots, Storage.ids] using member, rfl⟩⟩
  unfold ofFields at made
  cases stored : fields.filter (fun f => !f.isVoid) with
  | nil =>
    rw [stored] at made
    cases made
    refine ⟨⟨by simp, fun letters member => ?_⟩, by simp [Storage.ids]⟩
    rcases mem_place member with h | h <;> simp at h
  | cons s rest =>
    rw [stored] at made
    cases rest with
    | nil =>
      cases made
      refine ⟨⟨by simp, fun letters member => ?_⟩, fun n member => .inr ⟨s, ?_, member⟩⟩
      · rcases mem_place member with h | h <;> simp at h
      · have kept : s ∈ fields.filter fun f => !f.isVoid := by simp [stored]
        exact (List.mem_filter.mp kept).1
    | cons t more =>
      dsimp only at made
      split at made
      · split at made
        · obtain ⟨named, none_⟩ := ofColumns_named made
          exact ⟨named, by simp [none_]⟩
        · cases merged : merge? fields (s :: t :: more) with
          | some m =>
            rw [merged] at made
            cases made
            obtain ⟨named, none_⟩ := merge?_named merged
            exact ⟨named, by simp [none_]⟩
          | none =>
            rw [merged] at made
            cases made
            exact slots _
      · cases made
        exact slots _

/-- JavaScript calls nothing to build a struct. -/
theorem builder_js {fields : List Storage} {matrix : Bool} {id : Nat} {l : Layout}
    (made : ofFields fields matrix .js id = .ok l) (f : String) : l.builder ≠ .call f := by
  unfold ofFields at made
  split at made
  · cases made
    simp
  · cases made
    simp
  · simp only [Target.hasVectors] at made
    cases made
    simp [ofSlots]

end Layout

theorem Struct.Laid.named {s : Struct} (laid : s.Laid) (target : Target) :
    (s.layout target).Named := (Layout.ofFields_named (laid.layoutOf target)).1

end Ember
