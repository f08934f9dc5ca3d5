import Ember.Lower.Literal
import Ember.Proofs.Worlds.Parts

/-!
# How structs come to be known

Structs that are declared together share their storage. GLSL declares it once, under a number that
was not given before, with slots of structs that it declared before. So the structs of GLSL stay in
order, and types may be made of the new structs from then on.
-/

set_option autoImplicit false

namespace Ember

/-! ## What a layout declares -/

namespace Layout

/-- A struct is declared with the number of its group, and slots for its fields. -/
theorem mem_of_declared? {fields : List Storage} {matrix : Bool} {target : Target} {id : Nat}
    {l : Layout} {d : SlotStruct} (made : ofFields fields matrix target id = .ok l)
    (declared : l.declared? = some d) : d.id = id ∧ ∀ r ∈ d.slots, r ∈ fields := by
  obtain ⟨as, _, way⟩ := ofFields_way made
  generalize kept : fields.filter (fun f => !f.isVoid) = stored at way
  cases way with
  | struct =>
    cases declared
    refine ⟨rfl, fun r member => ?_⟩
    exact List.mem_of_mem_filter (kept ▸ member)
  | void => cases declared
  | transparent => cases declared
  | vectorMerge => cases declared
  | matrix => cases declared

end Layout

/-! ## Structs declared together -/

namespace Struct

structure Together (K : Known) (group : Nat) (ss : List Struct) : Prop where
  laid : ∀ s ∈ ss, s.Laid
  group_eq : ∀ s ∈ ss, s.group = group
  fields : ∀ s ∈ ss, ∀ f ∈ s.fields, f.ty.Within K
  shared : ∀ first ∈ ss.head?, ∀ s ∈ ss, s.glsl.storage = first.glsl.storage

def slotsOf (ss : List Struct) : Option SlotStruct := ss.head?.bind (·.glsl.declared?)

variable {K : Known}

theorem Declared.together {matrix : Bool} {n : Nat} {vs : List Variant} {ids ids' : Ids}
    {ss : List Struct} (declared : Declared (Ty.Within K) matrix n none vs ids ss ids') :
    Together K n ss where
  laid s member := by
    obtain ⟨_, _, new⟩ := declared.new member
    exact new.laid
  group_eq s member := by
    obtain ⟨_, _, new⟩ := declared.new member
    exact new.group_eq
  fields s member := by
    obtain ⟨_, _, new⟩ := declared.new member
    exact new.fields
  shared first found s member :=
    (alike_iff.mp (declared.alike first (by simpa using found) s member) .glsl).2.1.symm

theorem declareGroup_together (matrix : Bool) {vs : List Variant}
    (within : ∀ v ∈ vs, ∀ f ∈ v.fields, f.ty.Within K) (ids : Ids) :
    Ends (declareGroup vs matrix) ids
      (fun ss ids' => ids.next < ids'.next ∧ Together K ids.next ss)
      (fun _ _ => True) :=
  (declareGroup_run (B := fun _ => True) (fun _ => trivial) vs within ids
    fun _ _ _ _ => trivial).mono (fun _ _ declared => ⟨declared.grown, declared.together⟩)
      fun _ _ _ => trivial

/-- A struct declared alone. -/
theorem declare_together (matrix : Bool) {v : Variant}
    (within : ∀ f ∈ v.fields, f.ty.Within K) (ids : Ids) :
    Ends (declare v matrix) ids
      (fun s ids' => ids.next < ids'.next ∧ Together K ids.next [s] ∧ s.fields = v.fields)
      (fun _ _ => True) := by
  refine (declare_run (B := fun _ => True) (fun _ => trivial) v within ids
    fun _ _ => trivial).mono ?_ fun _ _ _ => trivial
  intro s ids' declared
  obtain ⟨w, listed, new⟩ := declared.new (List.mem_singleton_self s)
  exact ⟨declared.grown, declared.together, List.mem_singleton.mp listed ▸ new.fields_eq⟩

/-- The number that GLSL declares structs under, and what their slots are made of. -/
theorem Together.slots {n : Nat} {ss : List Struct} (h : Together K n ss) {d : SlotStruct}
    (declared : slotsOf ss = some d) :
    d.id = n ∧ ∀ r ∈ d.slots, ∃ t : Ty, t.Within K ∧ r = t.storage .glsl := by
  obtain ⟨s, first, declared⟩ := Option.bind_eq_some_iff.mp declared
  have member : s ∈ ss := List.mem_of_mem_head? first
  have made := (h.laid s member).layoutOf .glsl
  obtain ⟨id, slots⟩ := Layout.mem_of_declared? made declared
  refine ⟨id.trans (h.group_eq s member), fun r listed => ?_⟩
  obtain ⟨f, field, rfl⟩ := List.mem_map.mp (slots r listed)
  exact ⟨f.ty, h.fields s member f field, rfl⟩

end Struct

/-! ## A ground with new structs -/

namespace Ground

variable {g : Ground} {n : Nat} {ss : List Struct}

theorem stored_within (g : Ground) {t : Ty} (h : t.Within g.known) :
    ∀ id ∈ (t.storage .glsl).ids, g.structs id :=
  World.stored_within (w := ⟨g, fun _ => True, fun _ => True⟩) h

def add (g : Ground) (h : Struct.Together g.known n ss) : Ground where
  structs id := g.structs id ∨ ∃ d, Struct.slotsOf ss = some d ∧ d.id = id
  known := g.known.add ss
  laid := by
    rintro s (old | new)
    · exact g.laid s old
    · exact h.laid s new
  fields := by
    rintro s (old | new) f member
    · exact (g.fields s old f member).mono (g.known.subset_add ss)
    · exact (h.fields s new f member).mono (g.known.subset_add ss)
  stored := by
    rintro s (old | new) id stored
    · exact .inl (g.stored s old id stored)
    · -- what is stored is what the first of them stores
      obtain ⟨first, rest, rfl⟩ := List.exists_cons_of_ne_nil (List.ne_nil_of_mem new)
      rw [h.shared first rfl s new] at stored
      have member : first ∈ first :: rest := by simp
      have made := (h.laid first member).layoutOf .glsl
      rcases (Layout.ofFields_named made).2 id stored with ⟨own, declared⟩ | ⟨r, listed, inside⟩
      · obtain ⟨d, found⟩ := Option.isSome_iff_exists.mp declared
        exact .inr ⟨d, found, (Layout.mem_of_declared? made found).1.trans own.symm⟩
      · obtain ⟨f, field, rfl⟩ := List.mem_map.mp listed
        exact .inl (g.stored_within (h.fields first member f field) id inside)

end Ground

/-! ## Programs with new structs -/

section Mono

variable {K L : Known} (sub : ∀ s, K s → L s)

include sub

theorem ParamTy.Within.mono {p : ParamTy} (h : p.Within K) : p.Within L := by
  cases p with
  | exact ty => exact Ty.Within.mono sub h
  | vector kind => trivial
  | any => trivial

theorem Behaviour.Tidy.mono {b : Behaviour} (h : b.Tidy K) : b.Tidy L := by
  cases b with
  | construct s => exact sub s h
  | splat ty => exact Ty.Within.mono sub h
  | user f => exact h
  | _ => trivial

theorem Function.Tidy.mono {f : Function} (h : f.Tidy K) : f.Tidy L :=
  ⟨h.behaviour.mono sub, fun p member => (h.params p member).mono sub⟩

theorem Instance.Tidy.mono {i : Instance} (h : i.Tidy K) : i.Tidy L :=
  ⟨fun t member => (h.params t member).mono sub, h.ret.mono sub, h.backend⟩

theorem Scope.Tidy.mono {s : Scope} (h : s.Tidy K) : s.Tidy L where
  types p member := (h.types p member).mono sub
  functions p member := (h.functions p member).mono sub
  consts p member := (h.consts p member).imp_right fun within => within.mono sub
  params p member := (h.params p member).imp_right fun within => within.mono sub
  symbols p member := (h.symbols p member).mono sub
  anon p member := sub p.2 (h.anon p member)

end Mono

theorem SlotStruct.Ordered.snoc {ds : List SlotStruct} (h : Ordered ds) {d : SlotStruct}
    (slots : ∀ r ∈ d.slots, ∀ id ∈ r.ids, ∃ e ∈ ds, e.id = id) (new : ∀ e ∈ ds, e.id ≠ d.id) :
    Ordered (ds ++ [d]) := by
  intro front e back split
  rcases List.eq_nil_or_concat back with rfl | ⟨back, last, rfl⟩
  · obtain ⟨rfl, same⟩ := List.append_inj' split rfl
    cases List.singleton_inj.mp same
    exact ⟨slots, new⟩
  · rw [List.concat_eq_append, ← List.cons_append, ← List.append_assoc] at split
    exact h front e back (List.append_inj' split rfl).1

namespace Program

def withStructs (p : Program) (ids : Ids) (ss : List Struct) (own : Scope) : Program :=
  { p with
    ids
    env := { p.env with own }
    glsl := { p.glsl with structs := p.glsl.structs ++ (Struct.slotsOf ss).toList } }

variable {g : Ground} {p : Program} {ids : Ids} {ss : List Struct} {own : Scope}

theorem Tidy.withStructs (h : p.Tidy g) (together : Struct.Together g.known p.ids.next ss)
    (more : p.ids.next < ids.next) (scope : own.Tidy (g.known.add ss)) :
    (p.withStructs ids ss own).Tidy (g.add together) where
  own := scope
  root := h.root.mono (g.known.subset_add ss)
  void := h.void.mono (g.known.subset_add ss)
  vectors q member := (h.vectors q member).mono (g.known.subset_add ss)
  instances i member := (h.instances i member).mono (g.known.subset_add ss)
  structs := by
    rintro id (old | ⟨d, declared, rfl⟩)
    · obtain ⟨e, member, same⟩ := h.structs id old
      exact ⟨e, List.mem_append_left _ member, same⟩
    · exact ⟨d, List.mem_append_right _ (by simp [declared]), rfl⟩
  ordered := by
    change SlotStruct.Ordered (p.glsl.structs ++ (Struct.slotsOf ss).toList)
    cases declared : Struct.slotsOf ss with
    | none => simpa using h.ordered
    | some d =>
      obtain ⟨id, slots⟩ := together.slots declared
      refine h.ordered.snoc (fun r member n inside => ?_) fun e member => ?_
      · obtain ⟨t, within, rfl⟩ := slots r member
        exact h.structs n (g.stored_within within n inside)
      · have below := h.below e member
        omega
  below := by
    intro d member
    rcases List.mem_append.mp member with old | new
    · exact (h.below d old).trans more
    · rw [(together.slots (by simpa using new)).1]
      exact more

theorem adds_withStructs (more : p.ids.next ≤ ids.next)
    (functions : own.functions = p.env.own.functions) (params : own.params = p.env.own.params) :
    p.Adds (p.withStructs ids ss own) where
  ids := more
  declared := functions
  root := rfl
  instances := rfl
  outputs t := by cases t <;> rfl
  main := rfl
  uniforms := rfl
  params := by simp [Program.params, Program.withStructs, params]
  structs d member := List.mem_append_left _ member

end Program

/-- A state in which structs were declared together fits a world in which they are known. -/
theorem Emission.In.withStructs {c : Setting} {w : World} {s : Emission} (inside : s.In c w)
    {ids : Ids} {ss : List Struct} {own : Scope}
    (together : Struct.Together w.known s.program.ids.next ss)
    (more : s.program.ids.next < ids.next) (scope : own.Tidy (w.known.add ss))
    (functions : own.functions = s.program.env.own.functions)
    (params : own.params = s.program.env.own.params) :
    ∃ w', w.Writes [] w' ∧ (∀ t ∈ ss, w'.known t) ∧
      Emission.In c w' { s with program := s.program.withStructs ids ss own } := by
  have adds : s.program.Adds (s.program.withStructs ids ss own) :=
    Program.adds_withStructs more.le functions params
  have sub : w.Sub { w with toGround := w.toGround.add together } :=
    ⟨fun _ => .inl, w.known.subset_add ss, fun _ => id, fun _ => id⟩
  refine ⟨{ w with toGround := w.toGround.add together }, ⟨sub, by simp, by simp [Line.AllScoped]⟩,
    fun t member => .inr member, inside.tidy.withStructs together more scope, ?_, ?_,
    adds.functions ▸ inside.declared, inside.outside, c.holds_adds adds inside.holds,
    inside.frame.mono sub⟩
  · exact fun f => (inside.calls f).trans (c.calls_adds adds f).symm
  · exact fun x => adds.params ▸ inside.externals x

/-! ## Declaring a struct -/

open Emit

/-- A struct is declared for the target, and noted in the scope. -/
theorem Lowering.declareSlots_run (t : Struct) (record : Scope → Scope) (s : Emission) (ids : Ids) :
    (do
      Lowering.declareSlots t
      modifyProgram fun p => p.modifyScope record)
      { s with program := { s.program with ids } } =
    .ok () { s with program := s.program.withStructs ids [t] (record s.program.env.own) } := by
  unfold Lowering.declareSlots
  cases declared : t.glsl.declared? with
  | none =>
    have nothing : Struct.slotsOf [t] = none := declared
    simp [Program.withStructs, nothing]
    rfl
  | some d =>
    have slots : Struct.slotsOf [t] = some d := declared
    simp [Program.withStructs, slots]
    rfl

namespace Lives

variable {α : Type} {c : Setting} {w : World}

/-- A struct alone is declared, and is known to what comes then. -/
theorem declares {v : Variant} (within : ∀ f ∈ v.fields, f.ty.Within w.known)
    {slots : Struct → Emit Unit}
    (same : ∀ t : Struct, t.Laid → t.fields = v.fields → slots t = Lowering.declareSlots t)
    {record : Struct → Scope → Scope}
    (keeps : ∀ (t : Struct) (K : Known) (o : Scope), K t → o.Tidy K → (record t o).Tidy K ∧
      (record t o).functions = o.functions ∧ (record t o).params = o.params)
    {next : Struct → Emit α} {Q : World → α → Prop}
    (then_ : ∀ w', w.Sub w' → ∀ t, w'.known t → Lives c w' (next t) Q) :
    Lives c w (do
      let t ← Emit.numbering (Struct.declare v false)
      slots t
      Emit.modifyProgram fun p => p.modifyScope (record t)
      next t) Q := by
  intro s inside
  have ends := Struct.declare_together (K := w.known) false within s.program.ids
  refine Ends.bind ?_
  unfold Ends Emit.numbering at *
  cases run : Struct.declare v false s.program.ids with
  | error f ids =>
    rw [run] at ends
    trivial
  | ok t ids =>
    rw [run] at ends
    obtain ⟨more, together, fields⟩ := ends
    obtain ⟨scope, functions, params⟩ := keeps t (w.known.add [t]) s.program.env.own
      (.inr (by simp)) (inside.tidy.own.mono (w.known.subset_add [t]))
    obtain ⟨w', writes, known, state⟩ := inside.withStructs together more scope functions params
    have declared := Lowering.declareSlots_run t (record t) s ids
    rw [← same t (together.laid t (by simp)) fields] at declared
    dsimp only
    have whole : (do
        slots t
        Emit.modifyProgram fun p => p.modifyScope (record t)
        next t) { s with program := { s.program with ids } } =
        next t { s with
          program := s.program.withStructs ids [t] (record t s.program.env.own) } := by
      rw [← bind_assoc]
      change EStateM.bind _ _ _ = _
      unfold EStateM.bind
      rw [declared]
    rw [whole]
    refine (then_ w' writes.sub t (known t (by simp)) _ state).mono ?_ fun _ _ => id
    rintro a u ⟨w'', ls, writes', gained, state', holds⟩
    exact ⟨w'', ls, by simpa using writes.trans writes', ⟨gained.lines, gained.outer⟩, state',
      holds⟩

/-- A struct without fields has no slots. -/
theorem declareSlots_of_nil {t : Struct} (laid : t.Laid) (fields : t.fields = []) :
    (Pure.pure () : Emit Unit) = Lowering.declareSlots t := by
  have made := laid.layoutOf .glsl
  rw [fields] at made
  have layout : t.glsl = _ := (Except.ok.inj made).symm
  rw [Lowering.declareSlots, layout]
  rfl

end Lives

end Ember
