import Ember.Emit.Value
import Ember.Proofs.Declare

/-!
# Values that fit their types

A constant of a type has its form, and code is of a type that keeps something. Such values have
code, can be converted, taken apart and put together. One thing goes wrong: a value of a struct that
keeps nothing cannot become a value of an alternative, and then the compiler blames itself.
-/

set_option autoImplicit false

namespace Ember

mutual

/-- A constant of a type. Of an alternative there is one only if it keeps nothing. -/
def Ty.Holds : Ty → Constant → Prop
  | .scalar k, c => ∃ x : Scalar, c = .scalar x ∧ x.kind = k
  | .struct s, c => s.Holds c
  | .array of len, c => ∃ cs, c = .aggregate cs ∧ cs.length = len ∧ ∀ x ∈ cs, of.Holds x
  | .alt first _, c => first.isVoid = true ∧ first.Holds c

def Struct.Holds : Struct → Constant → Prop
  | ⟨_, _, _, fields, _, _, _⟩, c => ∃ cs, c = .aggregate cs ∧ Field.AllHold fields cs

def Field.AllHold : List Field → List Constant → Prop
  | [], cs => cs = []
  | ⟨_, ty⟩ :: fs, cs => ∃ c rest, cs = c :: rest ∧ ty.Holds c ∧ Field.AllHold fs rest

end

theorem Field.allHold_iff (fs : List Field) (cs : List Constant) :
    Field.AllHold fs cs ↔ List.Forall₂ (fun f c => f.ty.Holds c) fs cs := by
  induction fs generalizing cs with
  | nil => simp [Field.AllHold]
  | cons f fs ih =>
    obtain ⟨name, ty⟩ := f
    simp only [Field.AllHold, List.forall₂_cons_left_iff]
    constructor
    · rintro ⟨c, rest, rfl, holds, all⟩
      exact ⟨c, rest, holds, (ih rest).mp all, rfl⟩
    · rintro ⟨c, rest, holds, all, rfl⟩
      exact ⟨c, rest, rfl, holds, (ih rest).mpr all⟩

theorem Struct.holds_iff (s : Struct) (c : Constant) :
    s.Holds c ↔ ∃ cs, c = .aggregate cs ∧ List.Forall₂ (fun f c => f.ty.Holds c) s.fields cs := by
  obtain ⟨uid, group, name, fields, matrix, js, glsl⟩ := s
  simp only [Struct.Holds, Field.allHold_iff]

structure Value.Over (K : Known) (v : Value) : Prop where
  ty : v.ty.Over K
  const : ∀ c, v.payload = .const c → v.ty.Holds c
  code : ∀ c, v.payload = .code c → v.ty.isVoid = false

namespace Defect

def isVoidValue : Defect → Bool
  | .voidText _ | .alternativeConstant => true
  | _ => false

end Defect

namespace Known

/-- There are structs of one group that keep nothing. -/
def VoidGroup (K : Known) : Prop :=
  ∃ s t, K s ∧ K t ∧ s.uid ≠ t.uid ∧ s.group = t.group ∧ s.isVoid = true

/-- The compiler blames itself only where structs of one group keep nothing. -/
def Excuses (K : Known) (f : Failure) : Prop :=
  ∀ d, f.what = .defect d → d.isVoidValue = true ∧ K.VoidGroup

theorem Excuses.of_not_isDefect {K : Known} {f : Failure} (harmless : ¬ f.IsDefect) :
    K.Excuses f := fun d found => absurd ⟨d, found⟩ harmless

theorem VoidGroup.of_alt {K : Known} {first : Struct} {others : List Struct}
    (valid : (Ty.alt first others).Over K) (void : first.isVoid = true) : K.VoidGroup := by
  obtain ⟨known, nonempty, members⟩ := valid
  cases others with
  | nil => simp at nonempty
  | cons s rest =>
    obtain ⟨s_known, group, differ⟩ := members s (by simp)
    exact ⟨first, s, known, s_known, differ.symm, group.symm, void⟩

@[simp]
theorem excuses_locate (K : Known) (f : Failure) (span : Span) :
    K.Excuses (f.locate span) ↔ K.Excuses f := by
  simp [Excuses]

@[simp]
theorem excuses_problem (K : Known) (p : Problem) : K.Excuses (.problem p) :=
  .of_not_isDefect (not_isDefect_problem p)

@[simp]
theorem excuses_unsupported (K : Known) (u : Unsupported) : K.Excuses (.unsupported u) :=
  .of_not_isDefect (not_isDefect_unsupported u)

end Known

def Value.Scalars (K : Known) (k : ScalarKind) (vs : List Value) : Prop :=
  ∀ v ∈ vs, v.Over K ∧ v.ty = .scalar k

theorem Value.Over.mono {K L : Known} (sub : ∀ s, K s → L s) {v : Value} (h : v.Over K) :
    v.Over L := ⟨h.ty.mono sub, h.const, h.code⟩

theorem Value.over_const {K : Known} {c : Constant} {t : Ty} (valid : t.Over K)
    (holds : t.Holds c) : (Value.const c t).Over K where
  ty := valid
  const := by
    rintro _ ⟨⟩
    exact holds
  code := by
    rintro _ ⟨⟩

theorem Value.over_code {K : Known} {c : Code} {t : Ty} {place : Bool} (valid : t.Over K)
    (kept : t.isVoid = false) : Value.Over K ⟨.code c, t, place⟩ where
  ty := valid
  const := by
    rintro _ ⟨⟩
  code := fun _ _ => kept

theorem Value.const?_eq_some {v : Value} {c : Constant} :
    v.const? = some c ↔ v.payload = .const c := by
  unfold Value.const?
  cases v.payload <;> simp

theorem Value.const?_eq_none {v : Value} : v.const? = none ↔ ∃ c, v.payload = .code c := by
  unfold Value.const?
  cases v.payload <;> simp

theorem Value.consts?_eq_some {vs : List Value} {cs : List Constant} (found : consts? vs = some cs) :
    List.Forall₂ (fun v c => v.payload = .const c) vs cs := by
  unfold consts? at found
  induction vs generalizing cs with
  | nil =>
    simp only [List.mapM_nil, Option.pure_def, Option.some.injEq] at found
    subst found
    exact .nil
  | cons v vs ih =>
    simp only [List.mapM_cons, Option.bind_eq_bind, Option.bind_eq_some_iff, Option.pure_def,
      Option.some.injEq] at found
    obtain ⟨c, first, rest, others, rfl⟩ := found
    exact .cons (Value.const?_eq_some.mp first) (ih others)

theorem Value.consts?_eq_none {vs : List Value} (missing : consts? vs = none) :
    ∃ v ∈ vs, ∃ c, v.payload = .code c := by
  unfold consts? at missing
  induction vs with
  | nil => simp at missing
  | cons v vs ih =>
    cases first : v.const? with
    | none => exact ⟨v, by simp, Value.const?_eq_none.mp first⟩
    | some c =>
      simp only [List.mapM_cons, first, Option.bind_eq_bind, Option.bind_some,
        Option.bind_eq_none_iff, Option.pure_def, reduceCtorEq, imp_false] at missing
      obtain ⟨w, member, code⟩ := ih (Option.eq_none_iff_forall_ne_some.mpr missing)
      exact ⟨w, by simp [member], code⟩

theorem Struct.zero_eq (s : Struct) : s.zero = .aggregate (s.fields.map fun f => f.ty.zero) := by
  have zeros (fs : List Field) : Field.zeros fs = fs.map fun f => f.ty.zero := by
    induction fs with
    | nil => rw [Field.zeros, List.map_nil]
    | cons f fs ih =>
      obtain ⟨name, ty⟩ := f
      rw [Field.zeros, ih, List.map_cons]
  obtain ⟨uid, group, name, fields, matrix, js, glsl⟩ := s
  rw [Struct.zero, zeros]

/-! ## Code of constants -/

namespace Code

theorem ofStruct_eq (target : Target) (s : Struct) (c : Constant) :
    ofStruct target s c = (do
      let stored ← ofFields target s.fields (s.layout target).accessors (← items c (.struct s))
      assemble target s stored) := by
  obtain ⟨uid, group, name, fields, matrix, js, glsl⟩ := s
  rw [ofStruct]

/-- Fields that have code give one for each that is kept. -/
theorem ofFields_ok (target : Target) {fs : List Field} {as : List Accessor} {cs : List Constant}
    (placed : List.Forall₂ (fun (f : Field) a => a = .zero ↔ f.ty.isVoid = true) fs as)
    (holds : List.Forall₂ (fun (f : Field) c =>
      f.ty.isVoid = false → ∃ code, ofConst target f.ty c = .ok code) fs cs) :
    ∃ codes, ofFields target fs as cs = .ok codes ∧
      codes.length = (Field.kept fs).length := by
  induction fs generalizing as cs with
  | nil => exact ⟨[], by rw [ofFields], rfl⟩
  | cons f fs ih =>
    obtain ⟨name, ty⟩ := f
    cases placed with
    | cons place placed =>
      rename_i a as
      cases holds with
      | cons hold holds =>
        rename_i c cs
        obtain ⟨codes, rest, length⟩ := ih placed holds
        rw [ofFields]
        by_cases void : ty.isVoid = true
        · rw [if_pos (place.mpr void)]
          exact ⟨codes, rest, by simpa [Field.kept, void] using length⟩
        · rw [if_neg (fun zero => void (place.mp zero))]
          obtain ⟨code, own⟩ := hold (by simpa using void)
          simp only [own, rest, bind, Except.bind, pure, Except.pure]
          exact ⟨_, rfl, by simpa [Field.kept, void] using length⟩

theorem assemble_ok {K : Known} (closed : K.Closed) {s : Struct} (known : K s) (target : Target)
    (kept : s.isVoid = false) {stored : List Code}
    (some_kept : stored ≠ []) : ∃ code, assemble target s stored = .ok code := by
  have unit := closed.builder_unit known target
  unfold assemble
  split
  · simp_all
  · cases stored with
    | nil => simp at some_kept
    | cons c rest => exact ⟨c, rfl⟩
  · exact ⟨_, rfl⟩
  · exact ⟨_, rfl⟩

end Code

theorem Ty.Over.known_of_struct? {K : Known} {t : Ty} {s : Struct} (valid : t.Over K) (found : t.struct? = some s) :
    K s := by
  cases t with
  | scalar k => simp [Ty.struct?] at found
  | array of len => simp [Ty.struct?] at found
  | struct s' =>
    cases Option.some.inj found
    exact valid
  | alt first others =>
    cases Option.some.inj found
    exact valid.1

theorem Ty.holds_of_struct? {t : Ty} {s : Struct} {c : Constant} (found : t.struct? = some s)
    (holds : t.Holds c) : s.Holds c := by
  cases t with
  | scalar k => simp [Ty.struct?] at found
  | array of len => simp [Ty.struct?] at found
  | struct s' =>
    cases Option.some.inj found
    simpa only [Ty.Holds] using holds
  | alt first others =>
    cases Option.some.inj found
    simp only [Ty.Holds] at holds
    exact holds.2

theorem Value.nonVoid_gives (K : Known) (v : Value) (what : String) :
    Gives (v.nonVoid what) (fun w => w = v ∧ v.ty.isVoid = false) K.Excuses := by
  unfold Value.nonVoid
  cases void : v.ty.isVoid with
  | true => exact K.excuses_problem _
  | false => exact ⟨rfl, rfl⟩

namespace Known.Closed

variable {K : Known} (closed : K.Closed)

include closed

theorem kept_ne_nil {s : Struct} (known : K s) : Field.kept s.fields ≠ [] ↔ s.isVoid = false := by
  rw [← Bool.not_eq_true, closed.isVoid_iff known, Field.kept, Ne, List.filter_eq_nil_iff]
  simp

/-- The zero of a type that keeps nothing is a constant of it. -/
theorem zero_holds {t : Ty} (valid : t.Over K) (void : t.isVoid = true) : t.Holds t.zero := by
  induction t using Ty.induct with
  | scalar k => simp [Ty.isVoid] at void
  | struct s ih =>
    rw [Ty.Holds, Ty.zero, Struct.holds_iff, Struct.zero_eq]
    refine ⟨_, rfl, List.forall₂_map_right_iff.mpr (List.forall₂_same.mpr fun f member => ?_)⟩
    exact ih f member (closed.fields s valid f member) ((closed.isVoid_iff valid).mp void f member)
  | array of len ih => simp [Ty.isVoid] at void
  | alt first others ih _ =>
    have holds := ih valid.1 void
    rw [Ty.Holds, Ty.zero] at holds
    rw [Ty.Holds, Ty.zero]
    exact ⟨void, holds⟩

/-- It is the only one. -/
theorem eq_zero {t : Ty} {c : Constant} (valid : t.Over K) (void : t.isVoid = true)
    (holds : t.Holds c) : c = t.zero := by
  induction t using Ty.induct generalizing c with
  | scalar k => simp [Ty.isVoid] at void
  | struct s ih =>
    rw [Ty.Holds, Struct.holds_iff] at holds
    obtain ⟨cs, rfl, each⟩ := holds
    rw [Ty.zero, Struct.zero_eq]
    have voids := (closed.isVoid_iff valid).mp void
    rw [map_eq_of_forall₂ each fun f member c holds =>
      ih f member (closed.fields s valid f member) (voids f member) holds]
  | array of len _ => simp [Ty.isVoid] at void
  | alt first others ih _ =>
    have same := ih valid.1 void (c := c)
    rw [Ty.Holds, Ty.zero] at same
    rw [Ty.Holds] at holds
    rw [Ty.zero]
    exact same holds.2

theorem zero_over {t : Ty} (valid : t.Over K) (void : t.isVoid = true) :
    (Value.const t.zero t).Over K := Value.over_const valid (closed.zero_holds valid void)

/-- Constants of what keeps something have code. -/
theorem ofConst_ok {t : Ty} {c : Constant} (valid : t.Over K) (kept : t.isVoid = false)
    (holds : t.Holds c) (target : Target) : ∃ code, Code.ofConst target t c = .ok code := by
  induction t using Ty.induct generalizing c with
  | scalar k =>
    obtain ⟨x, rfl, _⟩ := by simpa only [Ty.Holds] using holds
    exact ⟨.lit x, by rw [Code.ofConst]⟩
  | struct s ih =>
    rw [Ty.Holds, Struct.holds_iff] at holds
    obtain ⟨cs, rfl, holds⟩ := holds
    have each : List.Forall₂ (fun (f : Field) c =>
        f.ty.isVoid = false → ∃ code, Code.ofConst target f.ty c = .ok code) s.fields cs := by
      refine ((List.forall₂_and_left _ _).mpr ⟨fun f member => member, holds⟩).imp ?_
      rintro f c ⟨member, hold⟩ kept
      exact ih f member (closed.fields s valid f member) kept hold
    obtain ⟨stored, fields, length⟩ := Code.ofFields_ok target (closed.accessors valid target) each
    have some_kept : stored ≠ [] := by
      have nonempty := (closed.kept_ne_nil valid).mpr kept
      rintro rfl
      exact nonempty (List.length_eq_zero_iff.mp length.symm)
    obtain ⟨code, assembled⟩ := Code.assemble_ok closed valid target kept some_kept
    refine ⟨code, ?_⟩
    rw [Code.ofConst, Code.ofStruct_eq]
    simp only [Code.items, fields, assembled, bind, Except.bind]
  | array of len ih =>
    rw [Ty.Holds] at holds
    obtain ⟨cs, rfl, _, holds⟩ := holds
    have each (x : Constant) (member : x ∈ cs) :
        Gives (Code.ofConst target of x) (fun _ => True) fun _ => False := by
      obtain ⟨code, run⟩ := ih valid.1 valid.2.1 (holds x member)
      exact .of_ok run trivial
    obtain ⟨codes, each, _⟩ := (Gives.mapM each).exists_ok
    rw [Code.ofConst]
    simp only [Code.items, each, bind, Except.bind, pure, Except.pure]
    exact ⟨_, rfl⟩
  | alt first others _ _ =>
    rw [Ty.Holds] at holds
    simp [Ty.isVoid, holds.1] at kept

theorem toCode_ok {v : Value} (valid : v.Over K) (kept : v.ty.isVoid = false) (target : Target) :
    ∃ code, v.toCode target = .ok code := by
  unfold Value.toCode
  split
  · exact ⟨_, rfl⟩
  · rename_i c const
    exact closed.ofConst_ok valid.ty kept (valid.const c const) target

/-- Values that keep nothing have no code. -/
theorem toCode_void {v : Value} (valid : v.Over K) (void : v.ty.isVoid = true) (target : Target) :
    ∃ d, v.toCode target = .error (.defect d) ∧ d.isVoidValue = true := by
  obtain ⟨payload, ty, place⟩ := v
  cases payload with
  | code c => exact absurd void (by simp [valid.code c rfl])
  | const c =>
    have holds := valid.const c rfl
    change ∃ d, Code.ofConst target ty c = .error (.defect d) ∧ d.isVoidValue = true
    cases ty with
    | scalar k => simp [Ty.isVoid] at void
    | array of len => simp [Ty.isVoid] at void
    | alt first others => exact ⟨.alternativeConstant, by rw [Code.ofConst], rfl⟩
    | struct s =>
      have known : K s := valid.ty
      simp only [Ty.Holds, Struct.holds_iff] at holds
      obtain ⟨cs, rfl, holds⟩ := holds
      have all_void := (closed.isVoid_iff known).mp void
      have each : List.Forall₂ (fun (f : Field) c =>
          f.ty.isVoid = false → ∃ code, Code.ofConst target f.ty c = .ok code) s.fields cs := by
        refine ((List.forall₂_and_left _ _).mpr ⟨all_void, holds⟩).imp ?_
        rintro f c ⟨no_value, _⟩ kept
        simp [no_value] at kept
      obtain ⟨stored, fields, _⟩ := Code.ofFields_ok target (closed.accessors known target) each
      have unit := (closed.builder_unit known target).mpr void
      refine ⟨.voidText s.name, ?_, rfl⟩
      rw [Code.ofConst, Code.ofStruct_eq]
      simp only [Code.items, fields, Code.assemble, unit, bind, Except.bind]

end Known.Closed

namespace Ty

theorem beq_self (t : Ty) : (t == t) = true := by
  change t.same t = true
  induction t using Ty.induct with
  | scalar k => simp [same]
  | struct s _ => simp [same]
  | array of len ih => simp [same, ih]
  | alt first others _ _ => simp [same]

theorem beq_comm (a b : Ty) : (a == b) = (b == a) := by
  change a.same b = b.same a
  induction a using Ty.induct generalizing b with
  | scalar k =>
    cases b <;> simp only [same]
    exact Bool.beq_comm
  | struct s _ =>
    cases b <;> simp only [same]
    exact Bool.beq_comm
  | array of len ih =>
    cases b with
    | array of' len' => simp only [same, ih, Bool.beq_comm (a := len)]
    | _ => simp only [same]
  | alt first others _ _ =>
    cases b <;> simp only [same]
    exact Bool.beq_comm

/-- What a type accepts besides itself. -/
theorem accepts_cases {goal other : Ty} (accepted : goal.accepts other = true)
    (differ : (other == goal) = false) :
    (goal = .f32 ∧ other = .i32) ∨ ∃ t ts, goal = .alt t ts ∧
      ∃ s ss, (other = .struct s ∨ other = .alt s ss) ∧ s.uid ∈ (t :: ts).map Struct.uid := by
  unfold accepts at accepted
  rw [beq_comm, differ, Bool.false_or] at accepted
  split at accepted
  · exact .inl ⟨rfl, rfl⟩
  · rename_i t ts s
    exact .inr ⟨t, ts, rfl, s, [], .inl rfl, by simpa using accepted⟩
  · rename_i t ts s ss
    refine .inr ⟨t, ts, rfl, s, ss, .inr rfl, ?_⟩
    have first := List.all_eq_true.mp accepted s (by simp)
    simpa using first
  · simp at accepted

end Ty

namespace Known.Closed

variable {K : Known} (closed : K.Closed)

include closed

/-- What an alternative accepts keeps something exactly if it does. -/
theorem isVoid_of_member {t s : Struct} {ts ss : List Struct} {other : Ty}
    (goalValid : (Ty.alt t ts).Over K) (valid : other.Over K)
    (form : other = .struct s ∨ other = .alt s ss) (member : s.uid ∈ (t :: ts).map Struct.uid) :
    other.isVoid = t.isVoid := by
  obtain ⟨m, found, same⟩ := List.mem_map.mp member
  have m_known : K m := by
    rcases List.mem_cons.mp found with rfl | rest
    · exact goalValid.1
    · exact (goalValid.2.2 m rest).1
  have known : K s := by
    rcases form with rfl | rfl
    · exact valid
    · exact valid.1
  have equal : m = s := closed.unique m s m_known known same
  rw [equal] at found
  have void := closed.member_isVoid goalValid found
  rcases form with rfl | rfl
  · exact void
  · exact void

/-- Conversion gives a value of the type, or is refused. -/
theorem convert_gives {v : Value} {goal : Ty} (valid : v.Over K) (goalValid : goal.Over K)
    (target : Target) :
    Gives (v.convert target goal) (fun w => w.Over K ∧ w.ty = goal) K.Excuses := by
  unfold Value.convert
  by_cases same : (v.ty == goal) = true
  · rw [if_pos same]
    exact ⟨valid, closed.eq_of_same valid.ty goalValid same⟩
  rw [if_neg same]
  cases accepted : goal.accepts v.ty with
  | false => exact K.excuses_problem _
  | true =>
    simp only [Bool.not_true, Bool.false_eq_true, if_false]
    obtain ⟨payload, ty, place⟩ := v
    rcases Ty.accepts_cases accepted (by simpa using same) with ⟨rfl, rfl⟩ | alternative
    · cases payload with
      | code c => exact ⟨Value.over_code goalValid rfl, rfl⟩
      | const c =>
        have holds := valid.const c rfl
        simp only [Ty.i32, Ty.Holds] at holds
        obtain ⟨x, rfl, kind⟩ := holds
        cases x with
        | int n =>
          refine ⟨Value.over_const goalValid ?_, rfl⟩
          simp only [Ty.f32, Ty.Holds]
          exact ⟨_, rfl, rfl⟩
        | float v => simp [Scalar.kind] at kind
        | bool b => simp [Scalar.kind] at kind
    · obtain ⟨t, ts, rfl, s, ss, form, member⟩ := alternative
      have same_void := closed.isVoid_of_member goalValid valid.ty form member
      change Gives (do return Value.code (← Value.toCode target ⟨payload, ty, place⟩) (.alt t ts)) _ _
      cases void : t.isVoid with
      | false =>
        obtain ⟨code, run⟩ := closed.toCode_ok valid (same_void.trans void) target
        refine Gives.bind (.of_ok run ?_)
        exact ⟨Value.over_code goalValid void, rfl⟩
      | true =>
        obtain ⟨d, run, isVoidValue⟩ := closed.toCode_void valid (same_void.trans void) target
        refine Gives.bind (.of_error run ?_)
        rintro _ ⟨⟩
        exact ⟨isVoidValue, Known.VoidGroup.of_alt goalValid void⟩

/-! ## Fields -/

/-- The fields without a place of their own are those that keep nothing. -/
theorem accessor_zero {s : Struct} {i : Nat} {f : Field} (known : K s)
    (found : s.fields[i]? = some f) (target : Target) :
    (s.layout target).accessors.getD i .zero = .zero ↔ f.ty.isVoid = true := by
  have accessors := closed.accessors known target
  obtain ⟨lt, rfl⟩ := List.getElem?_eq_some_iff.mp found
  have lt' : i < (s.layout target).accessors.length := accessors.length_eq ▸ lt
  rw [List.getD_eq_getElem _ _ lt']
  exact accessors.get lt lt'

/-- Fields can be read. -/
theorem field_ok {base : Value} {s : Struct} {i : Nat} {f : Field} (valid : base.Over K)
    (struct : base.ty.struct? = some s) (found : s.fields[i]? = some f) (target : Target) :
    ∃ w, base.field target i = .ok w ∧ w.Over K ∧ w.ty = f.ty := by
  have known := valid.ty.known_of_struct? struct
  have fieldValid := closed.fields s known f (List.mem_of_getElem? found)
  unfold Value.field
  simp only [struct, found]
  cases payload : base.payload with
  | const c =>
    obtain ⟨cs, rfl, holds⟩ :=
      (Struct.holds_iff s c).mp (Ty.holds_of_struct? struct (valid.const c payload))
    obtain ⟨item, at_i, hold⟩ : ∃ item, cs[i]? = some item ∧ f.ty.Holds item := by
      obtain ⟨lt, rfl⟩ := List.getElem?_eq_some_iff.mp found
      have lt' : i < cs.length := holds.length_eq ▸ lt
      exact ⟨cs[i], List.getElem?_eq_getElem lt', holds.get lt lt'⟩
    simp only [Code.items, at_i, bind, Except.bind, pure, Except.pure]
    exact ⟨_, rfl, Value.over_const fieldValid hold, rfl⟩
  | code c =>
    have place := closed.accessor_zero known found target
    cases void : f.ty.isVoid with
    | true =>
      rw [place.mpr void]
      exact ⟨_, rfl, closed.zero_over fieldValid void, rfl⟩
    | false =>
      rw [void] at place
      cases accessor : (s.layout target).accessors.getD i .zero with
      | zero => exact absurd (place.mp accessor) (by simp)
      | identity => exact ⟨_, rfl, Value.over_code fieldValid void, rfl⟩
      | swizzle letters => exact ⟨_, rfl, Value.over_code fieldValid void, rfl⟩
      | column index => exact ⟨_, rfl, Value.over_code fieldValid void, rfl⟩
      | slot index => exact ⟨_, rfl, Value.over_code fieldValid void, rfl⟩

/-- Structs can be built from their fields. -/
theorem construct_ok {s : Struct} {vs : List Value} (known : K s)
    (fits : List.Forall₂ (fun (f : Field) (v : Value) => v.Over K ∧ v.ty = f.ty) s.fields vs)
    (target : Target) :
    ∃ w, Value.construct target s vs = .ok w ∧ w.Over K ∧ w.ty = .struct s := by
  unfold Value.construct
  cases consts : Value.consts? vs with
  | some cs =>
    refine ⟨_, rfl, Value.over_const known ?_, rfl⟩
    rw [Ty.Holds, Struct.holds_iff]
    refine ⟨cs, rfl, ?_⟩
    refine (forall₂_chain fits (Value.consts?_eq_some consts)).imp ?_
    rintro f c ⟨v, ⟨valid, ty⟩, payload⟩
    rw [← ty]
    exact valid.const c payload
  | none =>
    obtain ⟨v, member, code, payload⟩ := Value.consts?_eq_none consts
    have placed := forall₂_join fits (closed.accessors known target)
    have kept_value : v.ty.isVoid = false := by
      obtain ⟨_, _, valid, _⟩ := exists_left_of_forall₂ fits member
      exact valid.code code payload
    have kept : s.isVoid = false := by
      obtain ⟨f, f_member, _, ty⟩ := exists_left_of_forall₂ fits member
      rw [← Bool.not_eq_true, closed.isVoid_iff known]
      intro all_void
      rw [ty, all_void f f_member] at kept_value
      simp at kept_value
    dsimp only
    have each (p : Value × Accessor)
        (hp : p ∈ (vs.zip (s.layout target).accessors).filter fun p => p.2 != .zero) :
        Gives (p.1.toCode target) (fun _ => True) fun _ => False := by
      obtain ⟨in_zip, nonzero⟩ := List.mem_filter.mp hp
      obtain ⟨f, _, ⟨valid, ty⟩, zero⟩ := List.forall₂_zip placed in_zip
      obtain ⟨c, run⟩ := closed.toCode_ok valid (by
        rw [ty, ← Bool.not_eq_true, ← zero]
        simpa using nonzero) target
      exact .of_ok run trivial
    obtain ⟨stored, run, related⟩ := (Gives.mapM each).exists_ok
    have some_kept : stored ≠ [] := by
      obtain ⟨i, lt, rfl⟩ := List.getElem_of_mem member
      have lt' : i < (s.layout target).accessors.length := placed.length_eq ▸ lt
      obtain ⟨f, _, ⟨_, ty⟩, zero⟩ := placed.get lt lt'
      simp only [List.get_eq_getElem] at ty zero
      have in_kept : (vs[i], (s.layout target).accessors[i]) ∈
          (vs.zip (s.layout target).accessors).filter fun p => p.2 != .zero := by
        refine List.mem_filter.mpr ⟨?_, ?_⟩
        · rw [← List.getElem_zip (h := by simpa using ⟨lt, lt'⟩)]
          exact List.getElem_mem _
        · rw [ty] at kept_value
          simp only [bne_iff_ne, ne_eq, zero, kept_value]
          simp
      rintro rfl
      rw [List.forall₂_nil_right_iff.mp related] at in_kept
      simp at in_kept
    obtain ⟨code', assembled⟩ := Code.assemble_ok closed known target kept some_kept
    simp only [run, assembled, bind, Except.bind, pure, Except.pure]
    exact ⟨_, rfl, Value.over_code known kept, rfl⟩

end Known.Closed

/-! ## Values from scalars -/

/-- Values for fields, each made of what is there for its scalars. What keeps nothing takes none. -/
inductive Field.Filled {γ : Type} (made : Ty → List γ → Value → Prop) :
    List Field → List γ → List Value → Prop
  | nil : Filled made [] [] []
  | void {f : Field} {fs : List Field} {xs : List γ} {vs : List Value} (void : f.ty.isVoid = true)
      (rest : Filled made fs xs vs) : Filled made (f :: fs) xs (.const f.ty.zero f.ty :: vs)
  | kept {f : Field} {fs : List Field} {xs ys : List γ} {v : Value} {vs : List Value}
      (kept : f.ty.isVoid = false) (own : made f.ty xs v) (rest : Filled made fs ys vs) :
      Filled made (f :: fs) (xs ++ ys) (v :: vs)

namespace Value

variable {γ : Type} {target : Target} {k : ScalarKind} {made : Ty → List γ → Value → Prop}
  {lone : Value → γ → Prop} {us : List Value} {xs : List γ}

theorem fieldsOfScalars_filled {fs : List Field} {ws : List Nat}
    (each : ∀ f ∈ fs, ∀ {w : Nat} {us : List Value} {xs : List γ}, f.ty.shape? = some (k, w) →
      us.length = w → List.Forall₂ lone us xs → ∀ rest,
      ∃ v, ofScalars target f.ty (us ++ rest) = .ok (v, rest) ∧ made f.ty xs v)
    (shapes : (Field.kept fs).map (fun f => f.ty.shape?) = ws.map (fun w => some (k, w)))
    (count : us.length = ws.sum) (scalars : List.Forall₂ lone us xs) (rest : List Value) :
    ∃ vs, fieldsOfScalars target fs (us ++ rest) = .ok (vs, rest) ∧
      Field.Filled made fs xs vs := by
  induction fs generalizing ws us xs with
  | nil =>
    obtain rfl : ws = [] := by simpa [Field.kept] using shapes.symm
    obtain rfl : us = [] := List.length_eq_zero_iff.mp count
    cases scalars
    exact ⟨[], by simp [fieldsOfScalars], .nil⟩
  | cons f fs ih =>
    obtain ⟨name, ty⟩ := f
    have others := fun f (member : f ∈ fs) => @each f (by simp [member])
    rw [fieldsOfScalars]
    cases void : ty.isVoid with
    | true =>
      obtain ⟨vs, run, filled⟩ := ih others (by simpa [Field.kept, void] using shapes) count scalars
      simp only [run, if_true, bind, Except.bind, pure, Except.pure]
      exact ⟨_, rfl, .void (f := ⟨name, ty⟩) void filled⟩
    | false =>
      cases ws with
      | nil => simp [Field.kept, void] at shapes
      | cons w ws =>
        simp only [Field.kept, void, Bool.not_false, List.filter_cons_of_pos, List.map_cons,
          List.cons.injEq] at shapes
        rw [List.sum_cons] at count
        have enough : (us.take w).length = w := by
          rw [List.length_take]
          omega
        obtain ⟨v, first, own⟩ := each ⟨name, ty⟩ (by simp) shapes.1 enough
          (List.forall₂_take w scalars) (us.drop w ++ rest)
        obtain ⟨vs, run, filled⟩ := @ih (us.drop w) (xs.drop w) ws others shapes.2
          (by rw [List.length_drop]; omega) (List.forall₂_drop w scalars)
        rw [← List.append_assoc, List.take_append_drop] at first
        dsimp only at first
        simp only [first, run, Bool.false_eq_true, if_false, bind, Except.bind, pure, Except.pure]
        have all := Field.Filled.kept (f := ⟨name, ty⟩) void own filled
        rw [List.take_append_drop] at all
        exact ⟨_, rfl, all⟩

/-- A value of a type with a shape is made of as many scalars as it has components, if a struct is
made of its fields. -/
theorem ofScalars_made {P : Ty → Prop}
    (fields : ∀ s, P (.struct s) → ∀ f ∈ s.fields, P f.ty)
    (scalar : ∀ u x, lone u x → made (.scalar k) [x] u)
    (struct : ∀ s w xs vs, P (.struct s) → s.shape? = some (k, w) →
      Field.Filled made s.fields xs vs →
      ∃ v, construct target s vs = .ok v ∧ made (.struct s) xs v)
    {t : Ty} {w : Nat} (own : P t) (shape : t.shape? = some (k, w)) (count : us.length = w)
    (scalars : List.Forall₂ lone us xs) (rest : List Value) :
    ∃ v, ofScalars target t (us ++ rest) = .ok (v, rest) ∧ made t xs v := by
  induction t using Ty.induct generalizing w us xs rest with
  | scalar k' =>
    simp only [Ty.shape?, Option.some.injEq, Prod.mk.injEq] at shape
    obtain ⟨rfl, rfl⟩ := shape
    obtain ⟨u, rfl⟩ := List.length_eq_one_iff.mp count
    cases scalars with
    | cons first none_left =>
      cases none_left
      exact ⟨u, by rw [List.singleton_append, ofScalars], scalar u _ first⟩
  | struct s ih =>
    rw [Ty.shape?] at shape
    obtain ⟨_, _, _, ws, _, rfl, shapes⟩ := Struct.shape?_some shape
    obtain ⟨vs, run, filled⟩ := fieldsOfScalars_filled
      (fun f member _ _ _ shape count scalars rest =>
        ih f member (fields s own f member) shape count scalars rest) shapes count scalars rest
    obtain ⟨v, built, whole⟩ := struct s _ xs vs own shape filled
    refine ⟨v, ?_, whole⟩
    obtain ⟨uid, group, name, fields, matrix, js, glsl⟩ := s
    rw [ofScalars, structOfScalars]
    dsimp only at run
    simp only [run, built, bind, Except.bind, pure, Except.pure]
  | array of len _ => simp [Ty.shape?] at shape
  | alt first others _ _ => simp [Ty.shape?] at shape

end Value

namespace Known.Closed

variable {K : Known} (closed : K.Closed)

include closed

/-- The fields of a type over a set are over it, those that keep nothing too. -/
theorem filled_over {fs : List Field} {us vs : List Value} (valid : ∀ f ∈ fs, f.ty.Over K)
    (filled : Field.Filled (fun t (_ : List Value) v => v.Over K ∧ v.ty = t) fs us vs) :
    List.Forall₂ (fun (f : Field) (v : Value) => v.Over K ∧ v.ty = f.ty) fs vs := by
  induction filled with
  | nil => exact .nil
  | void void _ ih =>
    obtain ⟨first, rest⟩ := List.forall_mem_cons.mp valid
    exact .cons ⟨closed.zero_over first void, rfl⟩ (ih rest)
  | kept _ own _ ih => exact .cons own (ih (List.forall_mem_cons.mp valid).2)

/-- A type with a shape is built from as many scalars as it has components. -/
theorem ofScalars_ok {t : Ty} {k : ScalarKind} {w : Nat} {vs : List Value} (valid : t.Over K)
    (shape : t.shape? = some (k, w)) (enough : w ≤ vs.length) (scalars : Value.Scalars K k vs)
    (target : Target) :
    ∃ v, Value.ofScalars target t vs = .ok (v, vs.drop w) ∧ v.Over K ∧ v.ty = t := by
  have taken : List.Forall₂ (fun u (_ : Value) => u.Over K ∧ u.ty = .scalar k) (vs.take w)
      (vs.take w) :=
    List.forall₂_same.mpr fun u member => scalars u (List.mem_of_mem_take member)
  obtain ⟨v, run, own⟩ := Value.ofScalars_made closed.fields (fun _ _ own => own)
    (fun s _ _ _ known _ filled =>
      closed.construct_ok known (closed.filled_over (closed.fields s known) filled) target)
    valid shape (List.length_take_of_le enough) taken (vs.drop w)
  rw [List.take_append_drop] at run
  exact ⟨v, run, own⟩

theorem fromScalars_ok {t : Ty} {k : ScalarKind} {w : Nat} {vs : List Value} (valid : t.Over K)
    (shape : t.shape? = some (k, w)) (enough : w ≤ vs.length) (scalars : Value.Scalars K k vs)
    (target : Target) : ∃ v, Value.fromScalars target t vs = .ok v ∧ v.Over K ∧ v.ty = t := by
  obtain ⟨v, run, own⟩ := closed.ofScalars_ok valid shape enough scalars target
  exact ⟨v, by simp [Value.fromScalars, run, Except.map], own⟩

end Known.Closed
end Ember
