import Ember.Emit.Project
import Ember.Emit.Broadcast
import Ember.Proofs.Worlds.Values
import Ember.Proofs.Safe.Parts

/-!
# Parts of values in their world

Parts of values and operations on vectors live in the world that their operands fit: what is kept
in a variable is declared before it is used.
-/

set_option autoImplicit false

namespace Ember.Lives

open Emit

variable {c : Setting} {w : World} {v : Value} {args : List Value}

theorem toCode (h : v.Fits w) (target : Target) : Lives c w (liftM (v.toCode target)) fit :=
  lift (v.toCode_grants h target)

theorem codes (h : ∀ v ∈ args, v.Fits w) (target : Target) :
    Lives c w (args.mapM fun v => liftM (v.toCode target)) fit :=
  mapM fun _ sub v member => toCode ((h v member).mono sub) target

theorem convert {t : Ty} (h : v.Fits w) (within : t.Within w.known) (target : Target) :
    Lives c w (liftM (v.convert target t)) fit :=
  lift (v.convert_grants h within target)

theorem expect {t : Ty} (h : v.Fits w) (within : t.Within w.known) (target : Target)
    (span : Span) : Lives c w (Emit.expect target v t span) fit :=
  locating (convert h within target)

/-- A value in a variable of its own. -/
theorem keep (h : v.Fits w) (target : Target) {α : Type} {next : String → Emit α}
    {Q : World → α → Prop}
    (then_ : ∀ w', w.Sub w' → ∀ x, Code.Fits w' (.name x) → Lives c w' (next x) Q) :
    Lives c w (do
      let e ← v.toCode target
      let name ← Emit.temp
      Emit.declareVar name v.ty (some e) false
      next name) Q := by
  refine bind (toCode h target) fun w₁ sub₁ e fits => ?_
  refine bind temp fun w₂ sub₂ x coined => ?_
  have sub := sub₁.trans sub₂
  have code : ∀ a ∈ some e, a.Loose w₂ := by simpa using (fits.mono sub₂).loose
  refine bind (declareVar false coined (World.stored_within (h.ty.mono sub.known)) code)
    fun w₃ sub₃ _ named => ?_
  exact then_ w₃ (sub.trans sub₃) x (.var coined named)

theorem cache (h : v.Fits w) (target : Target) : Lives c w (Emit.cache target v) fit := by
  unfold Emit.cache
  split
  · exact pure h
  · exact keep h target fun w' sub x fits => pure (Value.fits_code (h.ty.mono sub.known) fits)

theorem cachedCode (h : v.Fits w) (target : Target) :
    Lives c w (Emit.cachedCode target v) fit := by
  unfold Emit.cachedCode
  split
  · exact keep h target fun w' sub x fits => pure fits
  · exact bind (cache h target) fun w' _ u fits => toCode fits target

theorem discard (h : v.Fits w) (target : Target) : Lives c w (Emit.discard target v) fit := by
  unfold Emit.discard
  split
  · exact pure trivial
  · rename_i e payload
    split
    · exact pure trivial
    · refine effect ?_
      rw [Line.Scoped]
      exact (h.code e payload).loose

/-! ## Fields and scalars -/

theorem field (h : v.Fits w) (i : Nat) (target : Target) :
    Lives c w (liftM (v.field target i)) fit :=
  lift (v.field_grants h i target)

theorem fieldScalars {target : Target} {fs : List Field} {i : Nat} (h : v.Fits w)
    (each : ∀ f ∈ fs, ∀ {w : World} {v : Value}, v.Fits w →
      Lives c w (Emit.scalarsAt target f.ty v) fit) :
    Lives c w (Emit.fieldScalars target i fs v) fit := by
  induction fs generalizing w i with
  | nil =>
    rw [Emit.fieldScalars]
    exact pure (by simp [fit])
  | cons f fs ih =>
    obtain ⟨name, ty⟩ := f
    have rest {w' : World} (sub : w.Sub w') :=
      ih (i := i + 1) (h.mono sub) fun f member => each f (by simp [member])
    rw [Emit.fieldScalars]
    split
    · exact rest (.refl w)
    · refine bind (field h i target) fun w₁ sub₁ component part => ?_
      refine bind (each ⟨name, ty⟩ (by simp) part) fun w₂ sub₂ first fits => ?_
      refine bind (rest (sub₁.trans sub₂)) fun w₃ sub₃ others fits' => ?_
      exact pure (List.forall_mem_append.mpr ⟨Fitting.mono sub₃ fits, fits'⟩)

theorem scalarsAt (t : Ty) (h : v.Fits w) (target : Target) :
    Lives c w (Emit.scalarsAt target t v) fit := by
  induction t using Ty.induct generalizing w v with
  | scalar k =>
    rw [Emit.scalarsAt]
    exact pure (List.forall_mem_singleton.mpr h)
  | struct s ih =>
    have struct_eq : Emit.structScalars target s v = (do
        Emit.fieldScalars target 0 s.fields (← Emit.cache target v)) := by
      obtain ⟨uid, group, name, fields, matrix, js, glsl⟩ := s
      rw [Emit.structScalars]
    rw [Emit.scalarsAt, struct_eq]
    split
    · refine bind (cache h target) fun w₁ _ u fits => ?_
      exact fieldScalars fits fun f member _ _ fits => ih f member fits
    · exact defect _
  | array of len _ =>
    rw [Emit.scalarsAt]
    exact defect _
  | alt first others _ _ =>
    rw [Emit.scalarsAt]
    exact defect _

theorem scalars (h : v.Fits w) (target : Target) : Lives c w (Emit.scalars target v) fit :=
  scalarsAt v.ty h target

theorem fromScalars {t : Ty} (within : t.Within w.known) (h : ∀ v ∈ args, v.Fits w)
    (target : Target) : Lives c w (liftM (Value.fromScalars target t args)) fit :=
  lift (Value.fromScalars_grants within h target)

/-! ## Components, fields by name, and elements -/

/-- The letters of components are plain text. -/
theorem letters_plain (indices : List Nat) :
    Text.Plain (String.ofList (indices.map fun i => ['x', 'y', 'z', 'w'].getD i 'x')) := by
  refine Text.plain_of_forall fun a member => ?_
  rw [String.toList_ofList] at member
  obtain ⟨i, _, rfl⟩ := List.mem_map.mp member
  match i with
  | 0 => rfl
  | 1 => rfl
  | 2 => rfl
  | 3 => rfl
  | i + 4 => rfl

theorem swizzleTo {t : Ty} (h : v.Fits w) (within : t.Within w.known) (indices : List Nat)
    (target : Target) : Lives c w (Emit.swizzleTo target v indices t) fit := by
  unfold Emit.swizzleTo
  dsimp only
  split
  · refine bind (toCode h target) fun w₁ sub₁ a fits => ?_
    exact pure (Value.fits_code (within.mono sub₁.known) (.member fits (letters_plain indices)))
  · refine bind (scalars h target) fun w₁ sub₁ parts fits => ?_
    refine bind (mapM fun w₂ sub₂ i _ => ?_) fun w₂ sub₂ picked fits' => ?_
    · split
      · rename_i u found
        exact pure ((fits u (List.mem_of_getElem? found)).mono sub₂)
      · exact defect _
    · exact fromScalars (within.mono (sub₁.trans sub₂).known) fits' target

theorem fieldNamed (h : v.Fits w) (name : Ident) (target : Target) :
    Lives c w (Emit.fieldNamed target v name) fit := by
  unfold Emit.fieldNamed
  split
  · exact field h _ target
  · split
    · rename_i indices kind width _ shape
      split
      · unfold Emit.swizzle
        rw [shape]
        refine bind (vectorTy kind _) fun w₁ sub₁ ty within => ?_
        exact swizzleTo (h.mono sub₁) within indices target
      · exact locating (problem _)
    · exact locating (problem _)

theorem elementCode {i : Value} {of : Ty} (h : v.Fits w) (index : i.Fits w)
    (within : of.Within w.known) (target : Target) :
    Lives c w (Emit.elementCode target v i of) fit := by
  unfold Emit.elementCode
  refine bind (cachedCode h target) fun w₁ sub₁ a fits => ?_
  refine bind (toCode (index.mono sub₁) target) fun w₂ sub₂ b fits' => ?_
  exact pure (Value.fits_code (within.mono (sub₁.trans sub₂).known)
    (.index (fits.mono sub₂) fits'.loose))

theorem index {i : Value} (h : v.Fits w) (at_i : i.Fits w) (target : Target) :
    Lives c w (Emit.index target v i) fit := by
  unfold Emit.index
  split
  · exact problem _
  · rename_i of len found
    have within := h.ty.array? found
    refine bind (convert (t := .i32) at_i trivial target) fun w₁ sub₁ j fits => ?_
    have element := elementCode (c := c) (h.mono sub₁) fits (within.mono sub₁.known) target
    split
    · exact element
    · split
      · exact problem _
      · split
        · exact element
        · split
          · exact pure (Value.fits_const (within.mono sub₁.known) _)
          · exact defect _

/-! ## Operations on vectors -/

theorem components (h : ∀ v ∈ args, v.Fits w) (target : Target) :
    Lives c w (Emit.components target args) fit := by
  induction args generalizing w with
  | nil => exact pure (by simp [fit])
  | cons v vs ih =>
    rw [Emit.components]
    refine bind (cache (h v (by simp)) target) fun w₁ sub₁ u fits => ?_
    refine bind (scalars fits target) fun w₂ sub₂ parts fits => ?_
    have rest (u : Value) (member : u ∈ vs) := (h u (by simp [member])).mono (sub₁.trans sub₂)
    refine bind (ih rest) fun w₃ sub₃ others fits' => ?_
    exact pure (List.forall_mem_cons.mpr ⟨Fitting.mono sub₃ fits, fits'⟩)

theorem checkDivisor (h : ∀ v ∈ args, v.Fits w) (target : Target) (op : ScalarOp)
    (kind : ScalarKind) : Lives c w (Emit.checkDivisor target op kind args) fit := by
  unfold Emit.checkDivisor
  split
  · split
    · rename_i divisor found
      split
      · refine bind (scalars (h divisor (List.mem_of_getElem? found)) target)
          fun w₁ sub₁ parts fits => ?_
        split
        · exact problem _
        · exact pure trivial
      · exact pure trivial
    · exact pure trivial
  · exact pure trivial

theorem mapTo {inTy outTy : Ty} (h : ∀ v ∈ args, v.Fits w) (inside : inTy.Within w.known)
    (outside : outTy.Within w.known) (target : Target) (op : ScalarOp) (kind : ScalarKind)
    (width : Nat) : Lives c w (Emit.mapTo target op kind width inTy outTy args) fit := by
  unfold Emit.mapTo
  refine bind (checkDivisor h target op kind) fun w₁ sub₁ _ _ => ?_
  have operands (v : Value) (member : v ∈ args) := (h v member).mono sub₁
  split
  · refine bind (mapM fun w₂ sub₂ v member => ?_) fun w₂ sub₂ codes fits => ?_
    · exact lift (wholeOperand_grants ((operands v member).mono sub₂)
        (inside.mono (sub₁.trans sub₂).known) op width)
    · exact pure (Value.fits_code (outside.mono (sub₁.trans sub₂).known)
        (op.code_fits .glsl kind fits))
  · refine bind (components operands target) fun w₂ sub₂ parts fits => ?_
    refine bind (mapM fun w₃ sub₃ i _ => ?_) fun w₃ sub₃ results made => ?_
    · have picked := pick_grants (w := w₃) (fun vs member => Fitting.mono sub₃ (fits vs member)) i
      refine bind (lift (Q := fun w vs => ∀ v ∈ vs, v.Fits w) picked) fun w₄ sub₄ vs fits => ?_
      exact lift (scalarOp_grants fits target op)
    · exact fromScalars (outside.mono ((sub₁.trans sub₂).trans sub₃).known) made target

theorem mapOp (h : ∀ v ∈ args, v.Fits w) (target : Target) (op : ScalarOp) :
    Lives c w (Emit.mapOp target op args) fit := by
  unfold Emit.mapOp
  have shapes := shapedTy_grants none h (by simp)
  refine bind (lift (Q := fun w o => ∀ t ∈ o, t.Within w.known) shapes)
    fun w₁ sub₁ shaped within => ?_
  split
  · exact defect _
  · rename_i kind width _
    have inside : (shaped.getD (.scalar kind)).Within w₁.known := by
      cases shaped with
      | none => trivial
      | some t => exact within t rfl
    have operands (v : Value) (member : v ∈ args) := (h v member).mono sub₁
    dsimp only
    split
    · exact bind (pure (Q := fit) inside) fun w₂ sub₂ outTy outside =>
        mapTo (fun v member => (operands v member).mono sub₂) (inside.mono sub₂.known) outside
          target op kind width
    · exact bind (vectorTy _ width) fun w₂ sub₂ outTy outside =>
        mapTo (fun v member => (operands v member).mono sub₂) (inside.mono sub₂.known) outside
          target op kind width

theorem resultTy_within (r : Reduction) {K : Known} : r.resultTy.Within K := by
  cases r <;> trivial

theorem reduceScalars (h : ∀ v ∈ args, v.Fits w) (target : Target) (r : Reduction)
    (kind : ScalarKind) : Lives c w (Emit.reduceScalars target r kind args) fit := by
  unfold Emit.reduceScalars
  refine bind (components h target) fun w₁ sub₁ parts fits => ?_
  dsimp only
  refine bind (lift (Q := fun w o => ∀ v ∈ o, v.Fits w)
    (reduceTerms_grants fits target r kind (by simp) _)) fun w₂ sub₂ total made => ?_
  split
  · exact lift (reduceEnd_grants (made _ rfl) target r)
  · exact defect _

theorem reduce (h : ∀ v ∈ args, v.Fits w) (target : Target) (r : Reduction) :
    Lives c w (Emit.reduce target r args) fit := by
  unfold Emit.reduce
  refine bind (lift (Q := fun _ _ => True) (.of_forall fun _ => trivial)) fun w₁ sub₁ _ _ => ?_
  have operands (v : Value) (member : v ∈ args) := (h v member).mono sub₁
  split
  · exact defect _
  · rename_i kind _ _
    dsimp only
    split
    · refine bind (codes operands target) fun w₂ sub₂ codes fits => ?_
      refine bind (pure (Q := fun w o => ∀ a ∈ o, a.Fits w) fun a found =>
        wholeReduction?_fits fits found) fun w₃ sub₃ whole made => ?_
      split
      · exact pure (Value.fits_code (resultTy_within r) (made _ rfl))
      · exact reduceScalars (fun v member => (operands v member).mono (sub₂.trans sub₃)) target r
          kind
    · refine bind (pure (Q := fun _ o => o = none) rfl) fun w₂ sub₂ whole none => ?_
      rw [none]
      exact reduceScalars (fun v member => (operands v member).mono sub₂) target r kind

theorem normalize (h : v.Fits w) (target : Target) :
    Lives c w (Emit.normalize target v) fit := by
  unfold Emit.normalize
  split
  · refine bind (toCode h target) fun w₁ sub₁ a fits => ?_
    exact pure (Value.fits_code (h.ty.mono sub₁.known)
      (.native (by decide) (by simpa using fits.loose)))
  · refine bind (cache h target) fun w₁ sub₁ u (fits : u.Fits w₁) => ?_
    refine bind (reduce (by simpa using fits) target .length) fun w₂ sub₂ length fits' => ?_
    refine bind (cache fits' target) fun w₃ sub₃ length (fits'' : length.Fits w₃) => ?_
    exact mapOp (by simpa using ⟨fits.mono (sub₂.trans sub₃), fits''⟩) target .div

theorem columns {fs : List Field} {i : Nat} (h : v.Fits w) (target : Target) :
    Lives c w (Emit.columns target v i fs) fit := by
  induction fs generalizing w i with
  | nil => exact pure (by simp [fit])
  | cons f fs ih =>
    rw [Emit.columns]
    split
    · exact ih h
    · refine bind (field h i target) fun w₁ sub₁ part fits => ?_
      refine bind (scalars fits target) fun w₂ sub₂ column fits => ?_
      refine bind (ih (h.mono (sub₁.trans sub₂))) fun w₃ sub₃ others fits' => ?_
      exact pure (List.forall_mem_cons.mpr ⟨Fitting.mono sub₃ fits, fits'⟩)

theorem multiplyScalars {u : Value} (s : Struct) (h : v.Fits w) (h' : u.Fits w)
    (target : Target) : Lives c w (Emit.multiplyScalars target s v u) fit := by
  unfold Emit.multiplyScalars
  refine bind (cache h target) fun w₁ sub₁ m matrix => ?_
  refine bind (cache (h'.mono sub₁) target) fun w₂ sub₂ u vector => ?_
  refine bind (scalars vector target) fun w₃ sub₃ scales fits => ?_
  refine bind (columns (matrix.mono (sub₂.trans sub₃)) target) fun w₄ sub₄ columns fits' => ?_
  dsimp only
  refine bind (mapM fun w₅ sub₅ row _ => ?_) fun w₅ sub₅ results made => ?_
  · exact lift (rowProduct_grants (fun vs member => Fitting.mono sub₅ (fits' vs member))
      (fun v member => (fits v member).mono (sub₄.trans sub₅)) target row (by simp))
  · refine bind (vectorTy .float _) fun w₆ sub₆ ty within => ?_
    exact fromScalars within (fun v member => (made v member).mono sub₆) target

theorem matrixProduct {u : Value} (h : v.Fits w) (h' : u.Fits w) (target : Target) :
    Lives c w (Emit.matrixProduct target v u) fit := by
  unfold Emit.matrixProduct
  split
  · refine bind (toCode h target) fun w₁ sub₁ a fits => ?_
    refine bind (toCode (h'.mono sub₁) target) fun w₂ sub₂ b fits' => ?_
    exact pure (Value.fits_code (h'.ty.mono (sub₁.trans sub₂).known)
      (.op (fits.mono sub₂).loose fits'.loose _))
  · split
    · exact multiplyScalars _ h h' target
    · exact defect _

end Ember.Lives
