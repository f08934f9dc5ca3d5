import Ember.Proofs.Literal
import Ember.Proofs.Safe.Reduce

/-!
# Operations on constant vectors, for every target alike
-/

set_option autoImplicit false

namespace Ember

namespace Emit

variable {B : Known} {args : List Value} (target target' : Target)

/-! ## Scalars -/

theorem scalarOp_fixed (op : ScalarOp) (h : ∀ v ∈ args, v.Fixed B) :
    Paired (scalarOp target op args) (scalarOp target' op args) fun w => w.Fixed B := by
  obtain ⟨cs, consts⟩ := Value.Fixed.consts h
  unfold scalarOp
  split
  · exact .error _
  · rw [consts]
    exact Paired.bind (P := fun _ => True) ⟨rfl, fun _ _ => trivial⟩ fun c _ =>
      .ok (Value.fixed_const c trivial)

theorem fixed_pair {a b : Value} (ha : a.Fixed B) (hb : b.Fixed B) : ∀ v ∈ [a, b], v.Fixed B := by
  simp [ha, hb]

/-- Whether two constants are equal is known. -/
theorem compare_fixed (k : ScalarKind) {a b : Value} (ha : a.Fixed B) (hb : b.Fixed B) :
    Paired (compare target k a b) (compare target' k a b) fun w => ∃ x, w = .bool x := by
  obtain ⟨x, first⟩ := ha.const?
  obtain ⟨y, second⟩ := hb.const?
  unfold compare
  rw [first, second]
  exact .ok ⟨_, rfl⟩

theorem fixed_of_bool {w : Value} (h : ∃ x, w = .bool x) : w.Fixed B := by
  obtain ⟨x, rfl⟩ := h
  exact Value.fixed_const _ trivial

theorem pick_fixed {parts : List (List Value)} (h : ∀ part ∈ parts, ∀ v ∈ part, v.Fixed B)
    (i : Nat) : Paired (pick parts i) (pick parts i) fun vs => ∀ v ∈ vs, v.Fixed B := by
  refine Paired.mapM fun part member => ?_
  split
  · exact .ok (h _ member _ (by simp))
  · split
    · rename_i v found
      exact .ok (h _ member v (List.mem_of_getElem? found))
    · exact .error _

theorem reduceTerm_fixed (r : Reduction) (k : ScalarKind) (h : ∀ v ∈ args, v.Fixed B) :
    Paired (reduceTerm target r k args) (reduceTerm target' r k args) fun w => w.Fixed B := by
  unfold reduceTerm
  split
  · exact (compare_fixed target target' k (h _ (by simp)) (h _ (by simp))).mono
      fun _ => fixed_of_bool
  · exact (compare_fixed target target' k (h _ (by simp)) (h _ (by simp))).mono
      fun _ => fixed_of_bool
  · rename_i a b _
    have pair := fixed_pair (h a (by simp)) (h b (by simp))
    refine (scalarOp_fixed target target' .sub pair).bind fun difference hd => ?_
    refine (scalarOp_fixed target target' .abs (by simpa using hd)).bind fun distance ht => ?_
    exact scalarOp_fixed target target' .lt (fixed_pair ht (Value.fixed_const _ trivial))
  · exact scalarOp_fixed target target' .mul (fixed_pair (h _ (by simp)) (h _ (by simp)))
  · exact scalarOp_fixed target target' .mul (fixed_pair (h _ (by simp)) (h _ (by simp)))
  · exact .error _

theorem reduceTerms_fixed (r : Reduction) (k : ScalarKind) {parts : List (List Value)}
    (h : ∀ part ∈ parts, ∀ v ∈ part, v.Fixed B) {acc : Option Value} (ha : ∀ v ∈ acc, v.Fixed B)
    (indices : List Nat) :
    Paired (reduceTerms target r k parts acc indices) (reduceTerms target' r k parts acc indices)
      fun w => ∀ v ∈ w, v.Fixed B := by
  induction indices generalizing acc with
  | nil => exact .ok ha
  | cons i is ih =>
    rw [reduceTerms, reduceTerms]
    refine (pick_fixed h i).bind fun picked hp => ?_
    refine (reduceTerm_fixed target target' r k hp).bind fun term ht => ?_
    cases acc with
    | none => exact ih (by simpa using ht)
    | some v =>
      refine (scalarOp_fixed target target' _ (fixed_pair (ha v rfl) ht)).bind fun w hw => ?_
      exact ih (by simpa using hw)

theorem reduceTerm_eq (k : ScalarKind) (h : ∀ v ∈ args, v.Fixed B) :
    Paired (reduceTerm target .eq k args) (reduceTerm target' .eq k args)
      fun w => ∃ x, w = .bool x := by
  cases args with
  | nil => exact .error _
  | cons a rest =>
    cases rest with
    | nil => exact .error _
    | cons b _ => exact compare_fixed target target' k (h a (by simp)) (h b (by simp))

/-- Whether all components are equal is known. -/
theorem reduceTerms_eq (k : ScalarKind) {parts : List (List Value)}
    (h : ∀ part ∈ parts, ∀ v ∈ part, v.Fixed B) {acc : Option Value}
    (ha : ∀ v ∈ acc, ∃ x, v = .bool x) (indices : List Nat) :
    Paired (reduceTerms target .eq k parts acc indices)
      (reduceTerms target' .eq k parts acc indices) fun w => ∀ v ∈ w, ∃ x, v = .bool x := by
  induction indices generalizing acc with
  | nil => exact .ok ha
  | cons i is ih =>
    rw [reduceTerms, reduceTerms]
    refine (pick_fixed h i).bind fun picked hp => ?_
    refine (reduceTerm_eq target target' k hp).bind fun w hw => ?_
    cases acc with
    | none => exact ih (by simpa using hw)
    | some v =>
      obtain ⟨x, rfl⟩ := ha v rfl
      obtain ⟨y, rfl⟩ := hw
      -- Truth values are joined before anything is written.
      change Paired (reduceTerms target .eq k parts (some (.bool (x && y))) is)
        (reduceTerms target' .eq k parts (some (.bool (x && y))) is) _
      refine ih ?_
      rintro _ ⟨⟩
      exact ⟨_, rfl⟩

theorem reduceEnd_fixed (r : Reduction) {v : Value} (h : v.Fixed B) :
    Paired (reduceEnd target r v) (reduceEnd target' r v) fun w => w.Fixed B := by
  cases r with
  | ne => exact scalarOp_fixed target target' .not (by simpa using h)
  | length => exact scalarOp_fixed target target' .sqrt (by simpa using h)
  | eq | approx | dot => exact .ok h

theorem rowProduct_fixed (row : Nat) {acc : Option Value} (ha : ∀ v ∈ acc, v.Fixed B)
    {columns : List (List Value)} (hc : ∀ c ∈ columns, ∀ v ∈ c, v.Fixed B) {scales : List Value}
    (hs : ∀ v ∈ scales, v.Fixed B) :
    Paired (rowProduct target row acc columns scales) (rowProduct target' row acc columns scales)
      fun w => w.Fixed B := by
  induction columns generalizing acc scales with
  | nil =>
    cases acc with
    | none => exact .error _
    | some v => exact .ok (ha v rfl)
  | cons column cs ih =>
    cases scales with
    | nil =>
      cases acc with
      | none => exact .error _
      | some v => exact .ok (ha v rfl)
    | cons x xs =>
      rw [rowProduct.eq_def, rowProduct.eq_def]
      dsimp only
      cases found : column[row]? with
      | none => exact .error _
      | some v =>
        have entry := hc column (by simp) v (List.mem_of_getElem? found)
        refine (scalarOp_fixed target target' .mul (fixed_pair entry (hs x (by simp)))).bind
          fun term ht => ?_
        have rest (w : Value) (hw : w.Fixed B) :
            Paired (rowProduct target row (some w) cs xs) (rowProduct target' row (some w) cs xs)
              fun w => w.Fixed B :=
          ih (by simpa using hw) (fun c member => hc c (by simp [member]))
            fun u member => hs u (by simp [member])
        cases acc with
        | none => exact rest term ht
        | some w =>
          refine (scalarOp_fixed target target' .add (fixed_pair (ha w rfl) ht)).bind ?_
          exact rest

theorem shapedTy_fixed {found : Option Ty} (h : ∀ v ∈ args, v.Fixed B)
    (hf : ∀ t ∈ found, t.Over B) :
    Paired (shapedTy found args) (shapedTy found args) fun shaped => ∀ t ∈ shaped, t.Over B := by
  induction args generalizing found with
  | nil => exact .ok hf
  | cons v vs ih =>
    have rest := fun u (member : u ∈ vs) => h u (by simp [member])
    rw [shapedTy.eq_def]
    dsimp only
    split
    · exact ih rest hf
    · cases found with
      | none => exact ih rest (by simpa using (h v (by simp)).ty)
      | some ty =>
        dsimp only
        split
        · exact ih rest hf
        · exact .error _

end Emit

namespace Echoes

open Emit

variable {B : Known} {v : Value} {args : List Value} (target target' : Target)

/-! ## Vectors -/

theorem components (plain : B.Plain) (h : ∀ v ∈ args, v.Fixed B) :
    Echoes B (Emit.components target args) (Emit.components target' args)
      fun parts => ∀ part ∈ parts, ∀ v ∈ part, v.Fixed B := by
  induction args with
  | nil => exact pure (by simp)
  | cons v vs ih =>
    have first := h v (by simp)
    rw [Emit.components, Emit.components, cache_fixed target first, cache_fixed target' first,
      pure_bind, pure_bind]
    refine bind (scalars target target' plain first) fun part hp => ?_
    refine bind (ih fun u member => h u (by simp [member])) fun parts hps => pure ?_
    simpa [List.forall_mem_cons] using ⟨hp, hps⟩

theorem checkDivisor (plain : B.Plain) (op : ScalarOp) (k : ScalarKind)
    (h : ∀ v ∈ args, v.Fixed B) :
    Echoes B (Emit.checkDivisor target op k args) (Emit.checkDivisor target' op k args)
      fun _ => True := by
  unfold Emit.checkDivisor
  split
  · split
    · rename_i divisor found
      split
      · refine bind (scalars target target' plain (h divisor (List.mem_of_getElem? found)))
          fun parts _ => ?_
        split
        · exact problem _
        · exact pure trivial
      · exact pure trivial
    · exact pure trivial
  · exact pure trivial

theorem mapTo (plain : B.Plain) (op : ScalarOp) (k : ScalarKind) (width : Nat) (inTy : Ty)
    {outTy : Ty} (valid : outTy.Over B) (h : ∀ v ∈ args, v.Fixed B) :
    Echoes B (Emit.mapTo target op k width inTy outTy args)
      (Emit.mapTo target' op k width inTy outTy args) fun w => w.Fixed B := by
  unfold Emit.mapTo
  simp only [Value.Fixed.all_isConst h, Bool.not_true, Bool.and_false, Bool.false_eq_true, if_false]
  refine bind (checkDivisor target target' plain op k h) fun _ _ => ?_
  refine bind (components target target' plain h) fun parts hp => ?_
  refine bind (mapM (Q := fun w => w.Fixed B) fun i _ => ?_) fun results hr => ?_
  · refine bind (lift (pick_fixed hp i)) fun picked hpi => ?_
    exact lift (scalarOp_fixed target target' op hpi)
  · exact lift (Value.fromScalars_fixed target target' plain valid hr)

theorem mapOp (plain : B.Plain) (op : ScalarOp) (h : ∀ v ∈ args, v.Fixed B) :
    Echoes B (Emit.mapOp target op args) (Emit.mapOp target' op args) fun w => w.Fixed B := by
  unfold Emit.mapOp
  refine bind (lift (shapedTy_fixed h (by simp))) fun shaped hs => ?_
  split
  · exact defect _
  · rename_i k width _
    have inValid : (shaped.getD (.scalar k)).Over B := by
      cases shaped with
      | none => trivial
      | some t => exact hs t rfl
    dsimp only
    split
    · rw [pure_bind, pure_bind]
      exact mapTo target target' plain op k width _ inValid h
    · exact bind (vectorTy _ _) fun ty valid => mapTo target target' plain op k width _ valid h

theorem reduceBy (plain : B.Plain) {r : Reduction} {P Q : Value → Prop} (h : ∀ v ∈ args, v.Fixed B)
    (terms : ∀ (k : ScalarKind) (parts : List (List Value)),
      (∀ part ∈ parts, ∀ v ∈ part, v.Fixed B) → ∀ indices,
      Paired (reduceTerms target r k parts none indices)
        (reduceTerms target' r k parts none indices) fun w => ∀ v ∈ w, P v)
    (ends : ∀ v, P v → Paired (reduceEnd target r v) (reduceEnd target' r v) Q) :
    Echoes B (Emit.reduce target r args) (Emit.reduce target' r args) Q := by
  unfold Emit.reduce
  refine bind (lift (P := fun _ => True) ⟨rfl, fun _ _ => trivial⟩) fun _ _ => ?_
  split
  · exact defect _
  · rename_i k _ _
    simp only [Value.Fixed.all_isConst h, Bool.not_true, Bool.and_false, Bool.false_eq_true,
      if_false, pure_bind]
    unfold reduceScalars
    refine bind (components target target' plain h) fun parts hp => ?_
    refine bind (lift (terms k parts hp _)) fun sum hs => ?_
    split
    · exact lift (ends _ (hs _ rfl))
    · exact defect _

theorem reduce (plain : B.Plain) (r : Reduction) (h : ∀ v ∈ args, v.Fixed B) :
    Echoes B (Emit.reduce target r args) (Emit.reduce target' r args) fun w => w.Fixed B :=
  reduceBy target target' plain h
    (fun k _ hp indices => reduceTerms_fixed target target' r k hp (by simp) indices)
    fun _ hv => reduceEnd_fixed target target' r hv

theorem reduce_eq (plain : B.Plain) (h : ∀ v ∈ args, v.Fixed B) :
    Echoes B (Emit.reduce target .eq args) (Emit.reduce target' .eq args)
      fun w => ∃ x, w = .bool x :=
  reduceBy target target' plain h
    (fun k _ hp indices => reduceTerms_eq target target' k hp (by simp) indices)
    fun _ hv => .ok hv

theorem normalize (plain : B.Plain) (h : v.Fixed B) :
    Echoes B (Emit.normalize target v) (Emit.normalize target' v) fun w => w.Fixed B := by
  unfold Emit.normalize
  simp only [h.isConst, Bool.not_true, Bool.and_false, Bool.false_eq_true, if_false,
    cache_fixed target h, cache_fixed target' h, pure_bind]
  refine bind (reduce target target' plain .length (by simpa using h)) fun n hn => ?_
  rw [cache_fixed target hn, cache_fixed target' hn, pure_bind, pure_bind]
  exact mapOp target target' plain .div (fixed_pair h hn)

/-! ## Matrices -/

theorem columns (plain : B.Plain) (h : v.Fixed B) (i : Nat) (fs : List Field) :
    Echoes B (Emit.columns target v i fs) (Emit.columns target' v i fs)
      fun cols => ∀ c ∈ cols, ∀ u ∈ c, u.Fixed B := by
  induction fs generalizing i with
  | nil => exact pure (by simp)
  | cons f fs ih =>
    rw [Emit.columns, Emit.columns]
    split
    · exact ih (i + 1)
    · refine bind (lift (h.field target target' plain i)) fun part hp => ?_
      refine bind (scalars target target' plain hp) fun column hc => ?_
      refine bind (ih (i + 1)) fun rest hr => pure ?_
      simpa [List.forall_mem_cons] using ⟨hc, hr⟩

theorem matrixProduct (plain : B.Plain) {m : Value} (hm : m.Fixed B) (h : v.Fixed B) :
    Echoes B (Emit.matrixProduct target m v) (Emit.matrixProduct target' m v)
      fun w => w.Fixed B := by
  unfold Emit.matrixProduct
  simp only [hm.isConst, h.isConst, Bool.and_self, Bool.not_true, Bool.and_false,
    Bool.false_eq_true, if_false]
  split
  · rename_i s _
    unfold multiplyScalars
    simp only [cache_fixed target hm, cache_fixed target' hm, cache_fixed target h,
      cache_fixed target' h, pure_bind]
    refine bind (scalars target target' plain h) fun scales hs => ?_
    refine bind (columns target target' plain hm 0 s.fields) fun cols hc => ?_
    refine bind (mapM (Q := fun w => w.Fixed B) fun row _ => ?_) fun results hr => ?_
    · exact lift (rowProduct_fixed target target' row (by simp) hc hs)
    · refine bind (vectorTy _ _) fun ty valid => ?_
      exact lift (Value.fromScalars_fixed target target' plain valid hr)
  · exact defect _

/-! ## Counts and casts -/

theorem count (v : Value) :
    Echoes B (liftM (Emit.count v)) (liftM (Emit.count v)) fun w => w.Fixed B := by
  refine lift ⟨rfl, fun w run => ?_⟩
  unfold Emit.count at run
  split at run
  · cases run
    exact Value.fixed_const _ trivial
  · cases run
    exact Value.fixed_const _ trivial
  · cases run

theorem cast (h : v.Fixed B) (source goal : ScalarKind) :
    Echoes B (liftM (Emit.cast target source goal v)) (liftM (Emit.cast target' source goal v))
      fun w => w.Fixed B := by
  refine lift ?_
  obtain ⟨c, payload⟩ := h.const
  unfold Emit.cast
  rw [payload]
  split
  · exact .ok h
  · split
    · exact .ok (Value.fixed_const _ trivial)
    · exact .ok (Value.fixed_const _ trivial)
    · rename_i code _
      cases code
    · exact .error _

end Echoes
end Ember
