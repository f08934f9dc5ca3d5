import Ember.Proofs.Layout.Places
import Ember.Proofs.Safe.Call

/-!
# Fields of alternatives

A value of an alternative is built by the constructor of one of its structs, but its fields are
read at the places where the first of them has its own. Structs declared together are alike, so
any of their values is one of the alternative; a field that the alternative has by name is in one
place in all of them, so what is found there is that field of whichever struct was built.
-/

set_option autoImplicit false

namespace Ember

/-- The value that is found at a place. Where nothing is kept, the value is nothing. -/
def Accessor.Finds (a : Accessor) (p v : Physical Scalar) : Prop :=
  if a = .zero then v = .record [] else a.read? p = some v

namespace Struct

theorem Alike.symm {s t : Struct} (alike : s.Alike t) : t.Alike s := by
  rw [alike_iff] at alike ⊢
  exact fun target => ⟨(alike target).1.symm, (alike target).2.1.symm, (alike target).2.2.symm⟩

theorem Alike.trans {s t u : Struct} (h : s.Alike t) (g : t.Alike u) : s.Alike u := by
  rw [alike_iff] at h g ⊢
  exact fun target => ⟨(h target).1.trans (g target).1, (h target).2.1.trans (g target).2.1,
    (h target).2.2.trans (g target).2.2⟩

/-- What one struct keeps is a value of every struct like it. -/
theorem Alike.holds {s t : Struct} (alike : s.Alike t) {target : Target} {p : Physical Scalar}
    (holds : (s.layout target).Holds p) : (t.layout target).Holds p := by
  obtain ⟨path, storage, slots⟩ := alike_iff.mp alike target
  unfold Layout.Holds at holds ⊢
  rwa [← path, ← storage, ← slots]

/-- Structs declared together are alike. -/
theorem Declared.all_alike {P : Ty → Prop} {matrix : Bool} {group : Nat} {vs : List Variant}
    {ids ids' : Ids} {ss : List Struct} (declared : Declared P matrix group none vs ids ss ids')
    {s t : Struct} (hs : s ∈ ss) (ht : t ∈ ss) : s.Alike t := by
  cases ss with
  | nil => cases hs
  | cons first rest =>
    exact (declared.alike first rfl s hs).symm.trans (declared.alike first rfl t ht)

/-- Where names are distinct, a name leads to the field that has it. -/
theorem fieldIndex?_of_nodup {s : Struct} {i : Nat} {f : Field} (field : s.fields[i]? = some f)
    (distinct : (s.fields.map Field.name).Nodup) : s.fieldIndex? f.name = some i := by
  obtain ⟨inside, rfl⟩ := List.getElem?_eq_some_iff.mp field
  refine List.findIdx?_eq_some_iff_getElem.mpr ⟨inside, by simp, fun j before same => ?_⟩
  have earlier : j < s.fields.length := before.trans inside
  have names : (s.fields.map Field.name)[j]? = (s.fields.map Field.name)[i]? := by
    simpa [List.getElem?_eq_getElem earlier, List.getElem?_eq_getElem inside] using same
  exact before.ne ((List.getElem?_inj (by simpa using earlier) distinct).mp names)

/-- A struct that is built keeps every field at its place. -/
theorem Laid.build {s : Struct} (laid : s.Laid) (target : Target) {values : List (Physical Scalar)}
    (holds : List.Forall₂ (fun f v => (f.ty.storage target).Holds v) s.fields values) :
    ∃ p, (s.layout target).build? ((s.layout target).stored values) = some p ∧
      (s.layout target).Holds p ∧
      ∀ (i : Nat) (f : Field), s.fields[i]? = some f →
        ∃ a v, (s.layout target).accessors[i]? = some a ∧ values[i]? = some v ∧
          (a = .zero ↔ f.ty.storage target = .void) ∧ a.Finds p v := by
  have places := (laid.fits target).places
  obtain ⟨p, built, kept, reads, _⟩ := Layout.exists_build (laid.layoutOf target)
    (List.forall₂_map_left_iff.mpr holds)
  refine ⟨p, built, kept, fun i f field => ?_⟩
  obtain ⟨inside, rfl⟩ := List.getElem?_eq_some_iff.mp field
  have valued : i < values.length := holds.length_eq ▸ inside
  have placed : i < (s.layout target).accessors.length := reads.length_eq ▸ valued
  have zero := places.get (by simpa using inside) placed
  have value := holds.get inside valued
  simp only [List.get_eq_getElem, List.getElem_map] at zero value
  refine ⟨_, _, List.getElem?_eq_getElem placed, List.getElem?_eq_getElem valued, zero, ?_⟩
  unfold Accessor.Finds
  split
  case isTrue void =>
    rw [zero.mp void] at value
    exact value
  case isFalse stored => exact reads.get placed valued stored

end Struct

/-- A field of an alternative is a field of each of its structs, in one place. -/
theorem Ty.field?_alt {first : Struct} {others : List Struct} {name : String} {i : Nat} {t : Ty}
    (found : (Ty.alt first others).field? name = some (i, t)) {m : Struct}
    (member : m ∈ first :: others) :
    ∃ g, m.fields[i]? = some g ∧ g.name = name ∧ (g.ty == t) = true ∧
      ∀ target, (m.layout target).accessors[i]? = (first.layout target).accessors[i]? := by
  simp only [Ty.field?, Option.bind_eq_bind, Option.bind_eq_some_iff] at found
  obtain ⟨j, index, f, field, found⟩ := found
  split at found
  case isFalse => simp at found
  case isTrue shared =>
    simp only [Option.pure_def, Option.some.injEq, Prod.mk.injEq] at found
    obtain ⟨rfl, rfl⟩ := found
    rcases List.mem_cons.mp member with rfl | other
    · obtain ⟨inside, named, _⟩ := List.findIdx?_eq_some_iff_getElem.mp index
      obtain rfl : m.fields[j] = f :=
        Option.some.inj ((List.getElem?_eq_getElem inside).symm.trans field)
      exact ⟨_, field, by simpa using named, beq_self _, fun _ => rfl⟩
    · have own := List.all_eq_true.mp shared m other
      simp only [Bool.and_eq_true, Option.any_eq_true, List.all_eq_true, beq_iff_eq] at own
      obtain ⟨⟨g, own, named, same⟩, places⟩ := own
      exact ⟨g, own, named, same, fun target => places target (by cases target <;> decide)⟩

/-- How a field of an alternative is read. -/
theorem Value.field_alt {target : Target} {first : Struct} {i : Nat} {f : Field} {a : Accessor}
    (field : first.fields[i]? = some f) (place : (first.layout target).accessors[i]? = some a)
    (others : List Struct) (c : Code) (assignable : Bool) :
    Value.field target ⟨.code c, .alt first others, assignable⟩ i =
      .ok (if a = .zero then .const f.ty.zero f.ty
        else ⟨.code (c.project target a), f.ty, assignable⟩) := by
  have at_place : (first.layout target).accessors.getD i .zero = a := by simp [place]
  simp only [Value.field, Ty.struct?, field, at_place]
  cases a <;> rfl

/-- Reading a field of an alternative gives that field of whichever struct was built. The field is
the one of that name and type; the struct, built of its own fields, is a value of the alternative;
and the place of the field in the first struct, where it is read, is where this value has it. -/
theorem Ty.field_build {vs : List Variant} {matrix : Bool} {ids ids' : Ids}
    {ss members others : List Struct} {first m : Struct} {name : String} {i : Nat} {t : Ty}
    (declared : Struct.declareGroup vs matrix ids = .ok ss ids') (listed : ∀ s ∈ members, s ∈ ss)
    (made : Ty.mkAlt members = .ok (.alt first others))
    (found : (Ty.alt first others).field? name = some (i, t)) (member : m ∈ first :: others)
    (target : Target) {values : List (Physical Scalar)}
    (holds : List.Forall₂ (fun f v => (f.ty.storage target).Holds v) m.fields values) :
    ∃ g a p v, m.fields[i]? = some g ∧ g.name = name ∧ (g.ty == t) = true ∧
      ((m.fields.map Field.name).Nodup → m.fieldIndex? name = some i) ∧
      (∀ K : Known, K.Closed → (∀ w ∈ vs, ∀ f ∈ w.fields, f.ty.Over K) → g.ty = t) ∧
      (m.layout target).build? ((m.layout target).stored values) = some p ∧
      (first.layout target).Holds p ∧
      (first.layout target).accessors[i]? = some a ∧ values[i]? = some v ∧
      (a = .zero ↔ g.ty.storage target = .void) ∧ a.Finds p v ∧
      ∀ (c : Code) (assignable : Bool),
        Value.field target ⟨.code c, .alt first others, assignable⟩ i =
          .ok (if a = .zero then .const t.zero t
            else ⟨.code (c.project target a), t, assignable⟩) := by
  have declared := Struct.declared_of_ok (P := fun t => ∃ w ∈ vs, ∃ f ∈ w.fields, f.ty = t)
    (fun w variant f field => ⟨w, variant, f, field, rfl⟩) declared
  have among : ∀ s ∈ first :: others, s ∈ ss := by
    obtain ⟨own, _, rest⟩ := mkAlt_over made
    exact List.forall_mem_cons.mpr ⟨listed _ own, fun s other => listed _ (rest s other).1⟩
  have first_among := among first (by simp)
  obtain ⟨_, _, new⟩ := declared.new (among m member)
  obtain ⟨_, _, new_first⟩ := declared.new first_among
  obtain ⟨g, field, named, same, places⟩ := field?_alt found member
  obtain ⟨s, f, struct, own, rfl⟩ := field?_some found
  obtain rfl : first = s := Option.some.inj struct
  obtain ⟨p, built, kept, each⟩ := new.laid.build target holds
  obtain ⟨a, v, place, value, void, read⟩ := each i g field
  rw [places target] at place
  refine ⟨g, a, p, v, field, named, same, ?_, ?_, built, ?_, place, value, void, read,
    Value.field_alt own place others⟩
  · exact fun distinct => named ▸ Struct.fieldIndex?_of_nodup field distinct
  · intro K closed valid
    obtain ⟨w, variant, h, field_h, type_h⟩ := new.fields g (List.mem_of_getElem? field)
    obtain ⟨w', variant', h', field_h', type_h'⟩ := new_first.fields f (List.mem_of_getElem? own)
    refine closed.eq_of_same ?_ ?_ same
    · exact type_h ▸ valid w variant h field_h
    · exact type_h' ▸ valid w' variant' h' field_h'
  · exact (declared.all_alike (among m member) first_among).holds kept

/-- Structs with a number in common, and with nothing in different places. -/
theorem Ty.field_build_second : ∃ (empty first second : Struct) (p : Physical Scalar),
    Struct.declareGroup [⟨"e", []⟩] false ⟨1⟩ = .ok [empty] ⟨3⟩ ∧
    Struct.declareGroup [⟨"a", [⟨"n", .i32⟩, ⟨"e", .struct empty⟩, ⟨"x", .f32⟩]⟩,
      ⟨"b", [⟨"n", .i32⟩, ⟨"y", .f32⟩, ⟨"e", .struct empty⟩]⟩] false ⟨3⟩ = .ok [first, second] ⟨6⟩ ∧
    Ty.mkAlt [second, first] = .ok (.alt first [second]) ∧
    (Ty.alt first [second]).field? "n" = some (0, .i32) ∧
    (second.layout .glsl).build? [.vector [.int 3], .vector [.float 2]] = some p ∧
    (Accessor.slot 0).read? p = some (.vector [.int 3]) := by
  obtain ⟨empty, first, second, void, declared, made, found, fields, places, place⟩ :
      ∃ empty first second : Struct,
        Struct.declareGroup [⟨"e", []⟩] false ⟨1⟩ = .ok [empty] ⟨3⟩ ∧
        Struct.declareGroup [⟨"a", [⟨"n", .i32⟩, ⟨"e", .struct empty⟩, ⟨"x", .f32⟩]⟩,
          ⟨"b", [⟨"n", .i32⟩, ⟨"y", .f32⟩, ⟨"e", .struct empty⟩]⟩] false ⟨3⟩ =
          .ok [first, second] ⟨6⟩ ∧
        Ty.mkAlt [second, first] = .ok (.alt first [second]) ∧
        (Ty.alt first [second]).field? "n" = some (0, .i32) ∧
        (second.fields.map fun f => f.ty.storage .glsl) =
          [.vector .int 1, .vector .float 1, .void] ∧
        second.glsl.accessors = [.slot 0, .slot 1, .zero] ∧
        first.glsl.accessors[0]? = some (.slot 0) := ⟨_, _, _, rfl, rfl, rfl, rfl, rfl, rfl, rfl⟩
  have holds : List.Forall₂ (fun f v => (f.ty.storage .glsl).Holds v) second.fields
      [.vector [.int 3], .vector [.float 2], .record []] := by
    rw [← List.forall₂_map_left_iff (f := fun f : Field => f.ty.storage .glsl), fields]
    exact .cons ⟨_, rfl, rfl, by decide⟩
      (.cons ⟨_, rfl, rfl, by simp [Scalar.kind]⟩ (.cons rfl .nil))
  obtain ⟨_, a, p, v, _, _, _, _, _, built, _, at_first, value, _, read, _⟩ :=
    field_build declared (by simp) made found (m := second) (by simp) .glsl holds
  obtain rfl : a = .slot 0 := Option.some.inj (at_first.symm.trans place)
  cases value
  refine ⟨empty, first, second, p, void, declared, made, found, ?_, ?_⟩
  · simpa [Layout.stored, Struct.layout, places] using built
  · simpa [Accessor.Finds] using read

end Ember
