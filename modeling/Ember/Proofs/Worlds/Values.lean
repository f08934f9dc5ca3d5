import Ember.Emit.Broadcast
import Ember.Emit.Project
import Ember.Proofs.Worlds
import Ember.Proofs.Values

/-!
# Values that fit

What is made of values that fit a world fits it: constants written out, conversions, fields,
operations on scalars, and all that puts scalars together.
-/

set_option autoImplicit false

namespace Ember

variable {w : World}

/-! ## Code -/

namespace World

/-- The targets' own functions may always be called. -/
theorem native {f : String} (h : IsNative f) (names : Names) :
    (Mention.fn f).Ok w.calls w.structs names :=
  ⟨h.plain, fun coined => absurd coined h.not_coined,
    fun id named => absurd named (h.not_namesStruct id)⟩

/-- What builds a storage may be called if its structs are declared. -/
theorem builds {r : Storage} (h : ∀ id ∈ r.ids, w.structs id) (names : Names) :
    (Mention.fn r.glslName).Ok w.calls w.structs names :=
  ⟨r.glslName_plain, fun coined => absurd coined r.not_coined_glslName,
    fun id named => h id (Storage.mem_ids_of_namesStruct named)⟩

/-- The structs of a known type are declared. -/
theorem stored_within {t : Ty} (h : t.Within w.known) :
    ∀ id ∈ (t.storage .glsl).ids, w.structs id := by
  induction t using Ty.induct with
  | scalar k => simp [Ty.storage, Storage.scalar, Storage.ids]
  | struct s _ => exact w.stored s h
  | array of len ih => exact ih h
  | alt first others _ _ => exact w.stored first h.1

end World

namespace Code

theorem Loose.name {x : String} (plain : Text.Plain x) (seen : Ids.Coined x → w.names x) :
    (Code.name x).Loose w := by
  intro m member
  rw [mentions, List.mem_singleton] at member
  rw [member]
  exact ⟨plain, seen⟩

theorem Loose.paren {a : Code} (h : a.Loose w) : (Code.paren a).Loose w := by
  rw [Loose, mentions]
  exact h

theorem Loose.neg {a : Code} (h : a.Loose w) : (Code.neg a).Loose w := by
  rw [Loose, mentions]
  exact h

theorem Loose.not {a : Code} (h : a.Loose w) : (Code.not a).Loose w := by
  rw [Loose, mentions]
  exact h

theorem Loose.binary {a b : Code} (ha : a.Loose w) (hb : b.Loose w) (o : CodeOp) :
    (Code.binary o a b).Loose w := by
  rw [Loose, mentions]
  exact List.forall_mem_append.mpr ⟨ha, hb⟩

theorem Loose.choice {a b d : Code} (ha : a.Loose w) (hb : b.Loose w) (hd : d.Loose w) :
    (Code.choice a b d).Loose w := by
  rw [Loose, mentions]
  exact List.forall_mem_append.mpr ⟨List.forall_mem_append.mpr ⟨ha, hb⟩, hd⟩

theorem loose_all {cs : List Code} (h : ∀ a ∈ cs, a.Loose w) :
    ∀ m ∈ mentionsOfAll cs, m.Ok w.calls w.structs w.names := by
  rw [mentionsOfAll_eq]
  intro m member
  obtain ⟨a, listed, found⟩ := List.mem_flatMap.mp member
  exact h a listed m found

namespace Fits

theorem name {x : String} (plain : Text.Plain x) (seen : Ids.Coined x → w.names x) :
    (Code.name x).Fits w := ⟨rfl, .name plain seen⟩

/-- A variable in scope. -/
theorem var {x : String} (coined : Ids.Coined x) (seen : w.names x) : (Code.name x).Fits w :=
  name coined.plain fun _ => seen

theorem lit (s : Scalar) : (Code.lit s).Fits w := ⟨rfl, by simp [Loose, mentions]⟩

theorem paren {a : Code} (h : a.Loose w) : (Code.paren a).Fits w := ⟨rfl, h.paren⟩

theorem op {a b : Code} (ha : a.Loose w) (hb : b.Loose w) (o : CodeOp) :
    (Code.op o a b).Fits w := paren (ha.binary hb o)

theorem call {f : String} {args : List Code} (fn : (Mention.fn f).Ok w.calls w.structs w.names)
    (h : ∀ a ∈ args, a.Loose w) : (Code.call f args).Fits w := by
  refine ⟨rfl, ?_⟩
  rw [Loose, mentions]
  exact List.forall_mem_cons.mpr ⟨fn, loose_all h⟩

theorem native {f : String} {args : List Code} (fn : IsNative f) (h : ∀ a ∈ args, a.Loose w) :
    (Code.call f args).Fits w := call (World.native fn _) h

theorem list {items : List Code} (h : ∀ a ∈ items, a.Loose w) : (Code.list items).Fits w := by
  refine ⟨rfl, ?_⟩
  rw [Loose, mentions]
  exact loose_all h

theorem member {b : Code} {x : String} (h : b.Fits w) (plain : Text.Plain x) :
    (Code.member b x).Fits w := by
  refine ⟨h.atom, ?_⟩
  rw [Loose, mentions]
  refine List.forall_mem_append.mpr ⟨h.loose, fun m found => ?_⟩
  rw [List.mem_singleton.mp found]
  exact plain

theorem index {b i : Code} (h : b.Fits w) (hi : i.Loose w) : (Code.index b i).Fits w := by
  refine ⟨h.atom, ?_⟩
  rw [Loose, mentions]
  exact List.forall_mem_append.mpr ⟨h.loose, hi⟩

theorem slot {b : Code} (h : b.Fits w) (i : Nat) : (Code.slot b i).Fits w := by
  refine ⟨h.atom, ?_⟩
  rw [Loose, mentions]
  exact h.loose

end Fits

/-! ### Structs, arrays and constants -/

theorem assemble_grants {s : Struct} {stored : List Code} (known : w.known s)
    (h : ∀ a ∈ stored, a.Fits w) (target : Target) :
    Grants (assemble target s stored) (Code.Fits w) := by
  have loose (a : Code) (member : a ∈ stored) := (h a member).loose
  unfold assemble
  split
  · trivial
  · cases stored with
    | nil => trivial
    | cons a rest => exact h a (by simp)
  · rename_i f built
    have named := ((w.laid s known).named target).builder f built
    refine Fits.call ?_ loose
    rw [named]
    refine World.builds (fun id member => ?_) _
    cases target with
    | glsl => exact w.stored s known id member
    | js => exact absurd built (Layout.builder_js ((w.laid s known).layoutOf .js) f)
  · exact Fits.list loose

theorem arrayOf_fits {t : Ty} {items : List Code} (within : t.Within w.known)
    (h : ∀ a ∈ items, a.Fits w) (target : Target) : (arrayOf target t items).Fits w := by
  have loose (a : Code) (member : a ∈ items) := (h a member).loose
  cases target with
  | glsl => exact Fits.call (World.builds (World.stored_within within) _) loose
  | js => exact Fits.list loose

theorem ofFields_grants {target : Target} {fs : List Field} {as : List Accessor}
    {cs : List Constant} (each : ∀ f ∈ fs, ∀ a, Grants (ofConst target f.ty a) (Code.Fits w)) :
    Grants (ofFields target fs as cs) fun codes => ∀ a ∈ codes, a.Fits w := by
  induction fs generalizing as cs with
  | nil =>
    rw [ofFields]
    exact fun a member => absurd member (by simp)
  | cons f fs ih =>
    obtain ⟨name, ty⟩ := f
    have rest (as : List Accessor) (cs : List Constant) :
        Grants (ofFields target fs as cs) fun codes => ∀ a ∈ codes, a.Fits w :=
      ih fun g member => each g (by simp [member])
    cases as with
    | nil =>
      rw [ofFields]
      exact fun a member => absurd member (by simp)
    | cons a as =>
      rw [ofFields.eq_def]
      dsimp only
      split
      · exact rest as cs.tail
      · split
        · trivial
        · rename_i d ds
          refine .bind ((each ⟨name, ty⟩ (by simp) d).imp fun b hb => ?_)
          exact .bind ((rest as ds).imp fun bs hbs => List.forall_mem_cons.mpr ⟨hb, hbs⟩)

theorem ofConst_grants {t : Ty} (within : t.Within w.known) (a : Constant) (target : Target) :
    Grants (ofConst target t a) (Code.Fits w) := by
  induction t using Ty.induct generalizing a with
  | scalar k =>
    rw [ofConst.eq_def]
    dsimp only
    split
    · exact .lit _
    · trivial
  | struct s ih =>
    rw [ofConst, ofStruct_eq]
    refine .bind (Grants.of_forall fun items => .bind ?_)
    refine (ofFields_grants fun f member => ih f member (w.fields s within f member)).imp ?_
    exact fun stored fits => assemble_grants within fits target
  | array of len ih =>
    rw [ofConst]
    refine .bind (Grants.of_forall fun items => .bind ?_)
    exact (Grants.mapM fun i _ => ih within i).imp fun codes fits =>
      arrayOf_fits (t := .array of len) within fits target
  | alt first others _ _ =>
    rw [ofConst]
    trivial

theorem project_fits {s : Struct} {base : Code} {a : Accessor} {target : Target}
    (known : w.known s) (h : base.Fits w) (listed : a = .zero ∨ a ∈ (s.layout target).accessors) :
    (project target base a).Fits w := by
  cases a with
  | zero => exact h
  | identity => exact h
  | swizzle letters =>
    rcases listed with h' | member
    · simp at h'
    · exact h.member (((w.laid s known).named target).swizzles letters member)
  | column i => exact h.slot i
  | slot i =>
    cases target with
    | glsl => exact h.member (.append (Text.plain_of_all (by decide)) (Text.plain_toString i))
    | js => exact h.slot i

end Code

/-! ## Values -/

namespace Value

theorem fits_const {t : Ty} (within : t.Within w.known) (a : Constant) :
    (Value.const a t).Fits w := ⟨within, by rintro _ ⟨⟩⟩

theorem fits_code {a : Code} {t : Ty} {place : Bool} (within : t.Within w.known) (h : a.Fits w) :
    Value.Fits w ⟨.code a, t, place⟩ := by
  refine ⟨within, ?_⟩
  rintro _ ⟨⟩
  exact h

/-- A constant has no code that could use anything. -/
theorem fits_of_isConst {v : Value} (known : v.isConst = true) (within : v.ty.Within w.known) :
    v.Fits w := by
  refine ⟨within, fun a payload => ?_⟩
  simp [isConst, const?, payload] at known

theorem fits_int (n : Int32) : (Value.int n).Fits w :=
  fits_const (t := .i32) trivial _

theorem fits_float (x : Float32) : (Value.float x).Fits w :=
  fits_const (t := .f32) trivial _

theorem fits_bool (b : Bool) : (Value.bool b).Fits w :=
  fits_const (t := .bool) trivial _

theorem toCode_grants {v : Value} (h : v.Fits w) (target : Target) :
    Grants (v.toCode target) (Code.Fits w) := by
  unfold toCode
  split
  · rename_i a payload
    exact h.code a payload
  · exact Code.ofConst_grants h.ty _ target

theorem codes_grants {vs : List Value} (h : ∀ v ∈ vs, v.Fits w) (target : Target) :
    Grants (vs.mapM fun v => v.toCode target) fun codes => ∀ a ∈ codes, a.Fits w :=
  .mapM fun v member => toCode_grants (h v member) target

theorem convert_grants {v : Value} {goal : Ty} (h : v.Fits w) (within : goal.Within w.known)
    (target : Target) : Grants (v.convert target goal) (Value.Fits w) := by
  unfold convert
  split
  · exact h
  · split
    · trivial
    · split
      · exact fits_float _
      · rename_i a payload _ _
        have fits := h.code a payload
        refine fits_code (t := .f32) trivial ?_
        cases target with
        | glsl => exact .native (by decide) (by simpa using fits.loose)
        | js => exact fits
      · exact .bind ((toCode_grants h target).imp fun a fits => fits_code within fits)
      · trivial

theorem nonVoid_grants {v : Value} (h : v.Fits w) (what : String) :
    Grants (v.nonVoid what) (Value.Fits w) := by
  unfold nonVoid
  split
  · trivial
  · exact h

theorem field_grants {base : Value} (h : base.Fits w) (i : Nat) (target : Target) :
    Grants (base.field target i) (Value.Fits w) := by
  unfold field
  split
  · trivial
  · rename_i s found
    have known := h.ty.struct? found
    split
    · trivial
    · rename_i f at_i
      have within := w.fields s known f (List.mem_of_getElem? at_i)
      split
      · refine .bind (Grants.of_forall fun items => ?_)
        split
        · exact fits_const within _
        · trivial
      · rename_i a payload
        split
        · exact fits_const within _
        · refine fits_code within (Code.project_fits known (h.code a payload) ?_)
          rw [List.getD_eq_getElem?_getD]
          cases at_i : (s.layout target).accessors[i]? with
          | none => exact .inl rfl
          | some b => exact .inr (List.mem_of_getElem? at_i)

theorem construct_grants {s : Struct} {fields : List Value} (known : w.known s)
    (h : ∀ v ∈ fields, v.Fits w) (target : Target) :
    Grants (construct target s fields) (Value.Fits w) := by
  unfold construct
  split
  · exact fits_const (t := .struct s) known _
  · have kept : Grants (((fields.zip (s.layout target).accessors).filter fun p =>
        p.2 != .zero).mapM fun p => p.1.toCode target) fun stored => ∀ a ∈ stored, a.Fits w := by
      refine .mapM fun p member => ?_
      have listed := (List.mem_filter.mp member).1
      exact toCode_grants (h p.1 (List.of_mem_zip listed).1) target
    refine .bind (kept.imp fun stored fits => .bind ?_)
    exact (Code.assemble_grants known fits target).imp fun a fits =>
      fits_code (t := .struct s) known fits

/-! ### Scalars put together -/

def PairFits (w : World) (p : Value × List Value) : Prop := p.1.Fits w ∧ ∀ v ∈ p.2, v.Fits w

theorem fieldsOfScalars_grants {target : Target} {fs : List Field} {vs : List Value}
    (within : ∀ f ∈ fs, f.ty.Within w.known)
    (each : ∀ f ∈ fs, ∀ vs : List Value, (∀ v ∈ vs, v.Fits w) →
      Grants (ofScalars target f.ty vs) (PairFits w))
    (h : ∀ v ∈ vs, v.Fits w) :
    Grants (fieldsOfScalars target fs vs) fun p =>
      (∀ v ∈ p.1, v.Fits w) ∧ ∀ v ∈ p.2, v.Fits w := by
  induction fs generalizing vs with
  | nil =>
    rw [fieldsOfScalars]
    exact ⟨fun v member => absurd member (by simp), h⟩
  | cons f fs ih =>
    obtain ⟨name, ty⟩ := f
    have rest {vs : List Value} (h : ∀ v ∈ vs, v.Fits w) :=
      ih (fun g member => within g (by simp [member])) (fun g member => each g (by simp [member])) h
    rw [fieldsOfScalars]
    split
    · refine .bind ((rest h).imp fun p fits => ⟨?_, fits.2⟩)
      exact List.forall_mem_cons.mpr ⟨fits_const (within ⟨name, ty⟩ (by simp)) _, fits.1⟩
    · refine .bind ((each ⟨name, ty⟩ (by simp) vs h).imp fun p first => .bind ?_)
      exact (rest first.2).imp fun q fits => ⟨List.forall_mem_cons.mpr ⟨first.1, fits.1⟩, fits.2⟩

theorem ofScalars_grants {t : Ty} {vs : List Value} (within : t.Within w.known)
    (h : ∀ v ∈ vs, v.Fits w) (target : Target) :
    Grants (ofScalars target t vs) (PairFits w) := by
  induction t using Ty.induct generalizing vs with
  | scalar k =>
    rw [ofScalars.eq_def]
    dsimp only
    split
    · rename_i v rest
      exact ⟨h v (by simp), fun u member => h u (by simp [member])⟩
    · trivial
  | struct s ih =>
    have fields := w.fields s within
    obtain ⟨uid, group, name, _, matrix, js, glsl⟩ := s
    rw [ofScalars, structOfScalars]
    refine .bind ((fieldsOfScalars_grants fields (fun f member vs h =>
      ih f member (fields f member) h) h).imp fun p fits => .bind ?_)
    exact (construct_grants within fits.1 target).imp fun v made => ⟨made, fits.2⟩
  | array of len _ =>
    rw [ofScalars]
    trivial
  | alt first others _ _ =>
    rw [ofScalars]
    trivial

theorem fromScalars_grants {t : Ty} {vs : List Value} (within : t.Within w.known)
    (h : ∀ v ∈ vs, v.Fits w) (target : Target) :
    Grants (fromScalars target t vs) (Value.Fits w) := by
  have made := ofScalars_grants within h target
  unfold fromScalars
  cases run : ofScalars target t vs with
  | ok p =>
    rw [run] at made
    exact made.1
  | error f => trivial

end Value

/-! ## Operations on scalars -/

theorem ScalarKind.glslName_native (k : ScalarKind) : IsNative k.glslName := by
  cases k <;> decide

namespace ScalarOp

variable {args : List Code}

theorem operand_loose (h : ∀ a ∈ args, a.Loose w) (i : Nat) : (operand args i).Loose w := by
  rw [operand, List.getD_eq_getElem?_getD]
  cases found : args[i]? with
  | some a => exact h a (List.mem_of_getElem? found)
  | none =>
    exact .name (Text.plain_of_all (by decide)) fun coined => absurd coined.underscore (by simp)

theorem fnName_native (op : ScalarOp) : IsNative op.fnName := by
  cases op <;> decide

theorem wrapped_fits {a : Code} (h : a.Loose w) : (wrapped a).Fits w :=
  .op h (Code.Fits.lit _).loose _

theorem glslCode_fits (op : ScalarOp) (kind : ScalarKind) (h : ∀ a ∈ args, a.Loose w) :
    (op.glslCode kind args).Fits w := by
  have a := operand_loose h 0
  have b := operand_loose h 1
  have call : (Code.call op.fnName args).Fits w := .native op.fnName_native h
  unfold glslCode
  dsimp only
  split
  · exact .paren a.neg
  · exact .paren a.not
  · split
    · exact .op a b _
    · exact call
  · split
    · exact .op a b _
    · exact call

theorem jsIntCode?_fits {op : ScalarOp} (h : ∀ a ∈ args, a.Loose w) {made : Code}
    (found : op.jsIntCode? args = some made) : made.Fits w := by
  have a := operand_loose h 0
  have b := operand_loose h 1
  unfold jsIntCode? at found
  dsimp only at found
  split at found <;> cases found
  · exact wrapped_fits (Code.Fits.op a b _).loose
  · exact wrapped_fits (Code.Fits.op a b _).loose
  · exact .native (by decide) (by simpa using ⟨a, b⟩)
  · exact wrapped_fits (Code.Fits.op a b _).loose
  · exact wrapped_fits a.neg.paren
  · exact wrapped_fits (Code.Fits.native (by decide) (by simpa using a)).loose
  · exact .op a b _

theorem jsCode_fits (op : ScalarOp) (h : ∀ a ∈ args, a.Loose w) : (op.jsCode args).Fits w := by
  have a := operand_loose h 0
  have b := operand_loose h 1
  have d := operand_loose h 2
  have floor {e : Code} (he : e.Loose w) : (Code.call "Math.floor" [e]).Loose w :=
    (Code.Fits.native (by decide) (by simpa using he)).loose
  unfold jsCode
  dsimp only
  split
  · exact .op a (b.binary (floor (a.binary b _)) _) _
  · exact .paren a.neg
  · exact .paren a.not
  · have max : (Code.call "Math.max" [operand args 0, operand args 1]).Loose w :=
      (Code.Fits.native (by decide) (by simpa using ⟨a, b⟩)).loose
    exact .native (by decide) (by simpa using ⟨max, d⟩)
  · exact .op a ((Code.Fits.op b a _).loose.binary d _) _
  · exact .op a (floor a) _
  · split
    · exact .op a b _
    · exact .native (.append (by decide) op.fnName_native) h

theorem code_fits (op : ScalarOp) (target : Target) (kind : ScalarKind)
    (h : ∀ a ∈ args, a.Fits w) : (op.code target kind args).Fits w := by
  have loose (a : Code) (member : a ∈ args) := (h a member).loose
  unfold code
  split
  · exact op.glslCode_fits kind loose
  · split
    · cases found : op.jsIntCode? args with
      | some a => exact jsIntCode?_fits loose found
      | none => exact op.jsCode_fits loose
    · exact op.jsCode_fits loose

end ScalarOp

namespace Emit

variable {args : List Value}

theorem ownedCode_grants {v : Value} (h : v.Fits w) (target : Target) :
    Grants (ownedCode target v) (Code.Fits w) := by
  refine .bind ((v.toCode_grants h target).imp fun a fits => ?_)
  dsimp only
  split
  · exact .native (by decide) (by simpa using fits.loose)
  · exact fits

theorem scalarOp_grants (h : ∀ v ∈ args, v.Fits w) (target : Target) (op : ScalarOp) :
    Grants (scalarOp target op args) (Value.Fits w) := by
  unfold scalarOp
  split
  · trivial
  · rename_i kind _
    dsimp only
    split
    · exact .bind (Grants.of_forall fun a =>
        Value.fits_const (t := .scalar _) trivial a)
    · refine .bind ((Value.codes_grants h target).imp fun codes fits => ?_)
      exact Value.fits_code trivial (op.code_fits target kind fits)

theorem shapedTy_grants (found : Option Ty) (h : ∀ v ∈ args, v.Fits w)
    (within : ∀ t ∈ found, t.Within w.known) :
    Grants (shapedTy found args) fun shaped => ∀ t ∈ shaped, t.Within w.known := by
  induction args generalizing found with
  | nil =>
    rw [shapedTy]
    exact within
  | cons v vs ih =>
    have rest (found : Option Ty) := ih found fun u member => h u (by simp [member])
    rw [shapedTy.eq_def]
    dsimp only
    split
    · exact rest _ within
    · split
      · exact rest _ (by simpa using (h v (by simp)).ty)
      · split
        · exact rest _ within
        · trivial

theorem pick_grants {parts : List (List Value)} (h : ∀ vs ∈ parts, ∀ v ∈ vs, v.Fits w) (i : Nat) :
    Grants (pick parts i) fun vs => ∀ v ∈ vs, v.Fits w := by
  refine .mapM fun vs member => ?_
  have fits := h vs member
  split
  · exact fits _ (by simp)
  · split
    · rename_i found
      exact fits _ (List.mem_of_getElem? found)
    · trivial

theorem wholeOperand_grants {v : Value} {t : Ty} (h : v.Fits w) (within : t.Within w.known)
    (op : ScalarOp) (width : Nat) : Grants (wholeOperand op t width v) (Code.Fits w) := by
  refine .bind ((v.toCode_grants h .glsl).imp fun a fits => ?_)
  change Code.Fits w (if _ then _ else _)
  split
  · exact .call (World.builds (World.stored_within within) _) (by simpa using fits.loose)
  · exact fits

theorem compare_grants {a b : Value} (ha : a.Fits w) (hb : b.Fits w) (target : Target)
    (kind : ScalarKind) : Grants (compare target kind a b) (Value.Fits w) := by
  unfold compare
  split
  · exact Value.fits_bool _
  · refine .bind ((a.toCode_grants ha target).imp fun x hx => .bind ?_)
    exact (b.toCode_grants hb target).imp fun y hy =>
      Value.fits_code trivial (.op hx.loose hy.loose _)

theorem reduceTerm_grants (h : ∀ v ∈ args, v.Fits w) (target : Target) (r : Reduction)
    (kind : ScalarKind) : Grants (reduceTerm target r kind args) (Value.Fits w) := by
  have operate (op : ScalarOp) {vs : List Value} (h : ∀ v ∈ vs, v.Fits w) :=
    scalarOp_grants h target op
  unfold reduceTerm
  split
  · rename_i a b _
    exact compare_grants (h a (by simp)) (h b (by simp)) target kind
  · rename_i a b _
    exact compare_grants (h a (by simp)) (h b (by simp)) target kind
  · rename_i a b _
    have both : ∀ v ∈ [a, b], v.Fits w := by simpa using ⟨h a (by simp), h b (by simp)⟩
    refine .bind ((operate .sub both).imp fun x hx => .bind ?_)
    refine (operate .abs (by simpa using hx)).imp fun y hy => ?_
    exact operate .lt (by simpa using ⟨hy, Value.fits_float _⟩)
  · rename_i a b _
    exact operate .mul (by simpa using ⟨h a (by simp), h b (by simp)⟩)
  · rename_i a _
    exact operate .mul (by simpa using h a (by simp))
  · trivial

theorem reduceTerms_grants {parts : List (List Value)} (h : ∀ vs ∈ parts, ∀ v ∈ vs, v.Fits w)
    (target : Target) (r : Reduction) (kind : ScalarKind) {acc : Option Value}
    (before : ∀ v ∈ acc, v.Fits w) (is : List Nat) :
    Grants (reduceTerms target r kind parts acc is) fun o => ∀ v ∈ o, v.Fits w := by
  induction is generalizing acc with
  | nil =>
    rw [reduceTerms]
    exact before
  | cons i is ih =>
    have rest {v : Value} (hv : v.Fits w) : Grants (reduceTerms target r kind parts (some v) is)
        fun o => ∀ v ∈ o, v.Fits w := ih (by simpa using hv)
    rw [reduceTerms]
    refine .bind ((pick_grants h i).imp fun vs fits => .bind ?_)
    refine (reduceTerm_grants fits target r kind).imp fun term made => ?_
    cases acc with
    | none => exact rest made
    | some v =>
      refine .bind ((scalarOp_grants ?_ target (reduceJoin r)).imp fun sum added => rest added)
      simpa using ⟨before v rfl, made⟩

theorem wholeReduction?_fits {r : Reduction} {scalar : Bool} {codes : List Code} {made : Code}
    (h : ∀ a ∈ codes, a.Fits w) (found : wholeReduction? r scalar codes = some made) :
    made.Fits w := by
  have loose (a : Code) (member : a ∈ codes) := (h a member).loose
  unfold wholeReduction? at found
  split at found
  · rename_i a b
    have ha := loose a (by simp)
    have hb := loose b (by simp)
    split at found
    · cases found
      exact .op ha hb _
    · cases found
      exact .op ha hb _
    · cases found
      split
      · exact .op ha hb _
      · exact .native (by decide) loose
    · cases found
    · cases found
  · split at found
    · cases found
      exact .native (by decide) loose
    · cases found
  · cases found

theorem reduceEnd_grants {v : Value} (h : v.Fits w) (target : Target) (r : Reduction) :
    Grants (reduceEnd target r v) (Value.Fits w) := by
  have one : ∀ u ∈ [v], u.Fits w := by simpa using h
  cases r with
  | ne => exact scalarOp_grants one target .not
  | length => exact scalarOp_grants one target .sqrt
  | eq => exact h
  | approx => exact h
  | dot => exact h

theorem rowProduct_grants {columns : List (List Value)} {scales : List Value}
    (h : ∀ vs ∈ columns, ∀ v ∈ vs, v.Fits w) (hs : ∀ v ∈ scales, v.Fits w) (target : Target)
    (row : Nat) {acc : Option Value} (before : ∀ v ∈ acc, v.Fits w) :
    Grants (rowProduct target row acc columns scales) (Value.Fits w) := by
  induction columns generalizing acc scales with
  | nil =>
    cases acc with
    | none =>
      rw [rowProduct.eq_def]
      trivial
    | some v =>
      rw [rowProduct.eq_def]
      exact before v rfl
  | cons column columns ih =>
    cases scales with
    | nil =>
      cases acc with
      | none =>
        rw [rowProduct.eq_def]
        trivial
      | some v =>
        rw [rowProduct.eq_def]
        exact before v rfl
    | cons s ss =>
      have rest {v : Value} (hv : v.Fits w) :
          Grants (rowProduct target row (some v) columns ss) (Value.Fits w) :=
        ih (fun vs member => h vs (by simp [member])) (fun u member => hs u (by simp [member]))
          (by simpa using hv)
      rw [rowProduct]
      split
      · trivial
      · rename_i v found
        have part := h column (by simp) v (List.mem_of_getElem? found)
        have both : ∀ u ∈ [v, s], u.Fits w := by simpa using ⟨part, hs s (by simp)⟩
        refine .bind ((scalarOp_grants both target .mul).imp fun term made => ?_)
        cases acc with
        | none => exact rest made
        | some u =>
          refine .bind ((scalarOp_grants ?_ target .add).imp fun sum added => rest added)
          simpa using ⟨before u rfl, made⟩

theorem count_grants (v : Value) : Grants (count v) (Value.Fits w) := by
  unfold count
  split
  · exact Value.fits_int _
  · exact Value.fits_int _
  · trivial

theorem cast_grants {v : Value} (h : v.Fits w) (target : Target) (source goal : ScalarKind) :
    Grants (cast target source goal v) (Value.Fits w) := by
  unfold cast
  split
  · exact h
  · split
    · exact Value.fits_float _
    · exact Value.fits_int _
    · rename_i a payload _
      have fits := h.code a payload
      refine Value.fits_code (t := .scalar _) trivial ?_
      split
      · exact .native (ScalarKind.glslName_native _) (by simpa using fits.loose)
      · exact ScalarOp.wrapped_fits fits.loose
      · exact fits
    · trivial

end Emit

end Ember
