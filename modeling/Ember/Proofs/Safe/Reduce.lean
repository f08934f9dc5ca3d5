import Ember.Proofs.Safe.Broadcast

/-!
# Reductions, safely

Reductions, normal vectors, products with matrices and casts.
-/

set_option autoImplicit false

namespace Ember

namespace Reduction

def termKind : Reduction → ScalarKind
  | .eq | .ne | .approx => .bool
  | .dot | .length => .float

theorem resultTy_eq (r : Reduction) : r.resultTy = .scalar r.termKind := by
  cases r <;> rfl

theorem join_supports (r : Reduction) : (Emit.reduceJoin r).Supports r.termKind := by
  cases r with
  | eq | ne | approx => exact ScalarOp.supports_bool (by decide)
  | dot | length => exact ScalarOp.supports_float (by decide)

theorem join_resultKind (r : Reduction) : (Emit.reduceJoin r).resultKind r.termKind = r.termKind := by
  cases r <;> rfl

end Reduction

namespace Emit

variable {K : Known}

theorem compare_gives (closed : K.Closed) {k k' : ScalarKind} {a b : Value} (ha : a.Of K (.scalar k))
    (hb : b.Of K (.scalar k)) (target : Target) :
    Gives (compare target k' a b) (Value.Of K .bool) K.Excuses := by
  unfold compare
  split
  · exact Value.Of.bool _
  · refine .bind ((ha.toCode_gives closed rfl target).imp fun _ _ => ?_)
    exact .bind ((hb.toCode_gives closed rfl target).imp fun _ _ => Value.Of.code trivial rfl)

theorem scalars_pair {k : ScalarKind} {a b : Value} (ha : a.Of K (.scalar k))
    (hb : b.Of K (.scalar k)) : Value.Scalars K k [a, b] := by
  intro v member
  rcases List.mem_cons.mp member with rfl | rest
  · exact ha
  · rw [List.mem_singleton.mp rest]
    exact hb

theorem scalars_single {k : ScalarKind} {a : Value} (ha : a.Of K (.scalar k)) :
    Value.Scalars K k [a] := by
  intro v member
  rw [List.mem_singleton.mp member]
  exact ha

/-- One component of each operand comes to a scalar. -/
theorem reduceTerm_gives (closed : K.Closed) {r : Reduction} {k : ScalarKind} {operands : List Value}
    (supports : r.Supports k) (own : Value.Scalars K k operands)
    (arity : operands.length = r.arity) (target : Target) :
    Gives (reduceTerm target r k operands) (Value.Of K (.scalar r.termKind)) K.Excuses := by
  have at_ (v : Value) (member : v ∈ operands) : v.Of K (.scalar k) := own v member
  cases r with
  | eq =>
    match operands, arity with
    | [a, b], _ => exact compare_gives closed (at_ a (by simp)) (at_ b (by simp)) target
  | ne =>
    match operands, arity with
    | [a, b], _ => exact compare_gives closed (at_ a (by simp)) (at_ b (by simp)) target
  | approx =>
    match operands, arity with
    | [a, b], _ =>
      cases supports
      have sub : ScalarOp.sub.Supports .float := ScalarOp.supports_float (by decide)
      have abs : ScalarOp.abs.Supports .float := ScalarOp.supports_float (by decide)
      have lt : ScalarOp.lt.Supports .float := ScalarOp.supports_float (by decide)
      refine .bind ((scalarOp_gives closed sub own rfl target).imp fun d hd => ?_)
      refine .bind ((scalarOp_gives closed abs (scalars_single hd) rfl target).imp fun e he => ?_)
      exact scalarOp_gives closed lt (scalars_pair he (Value.Of.float _)) rfl target
  | dot =>
    match operands, arity with
    | [a, b], _ =>
      cases supports
      have mul : ScalarOp.mul.Supports .float := ScalarOp.supports_float (by decide)
      exact scalarOp_gives closed mul own rfl target
  | length =>
    match operands, arity with
    | [a], _ =>
      cases supports
      have mul : ScalarOp.mul.Supports .float := ScalarOp.supports_float (by decide)
      have ha := at_ a (by simp)
      exact scalarOp_gives closed mul (scalars_pair ha ha) rfl target

theorem reduceTerms_gives (closed : K.Closed) {r : Reduction} {k : ScalarKind} {width : Nat}
    {parts : List (List Value)} {acc : Option Value} {indices : List Nat}
    (supports : r.Supports k)
    (own : ∀ part ∈ parts, Value.Scalars K k part ∧ (part.length = width ∨ part.length = 1))
    (arity : parts.length = r.arity) (accValid : ∀ v ∈ acc, v.Of K (.scalar r.termKind))
    (small : ∀ i ∈ indices, i < width) (target : Target) :
    Gives (reduceTerms target r k parts acc indices)
      (fun result => (acc ≠ none ∨ indices ≠ [] → result ≠ none) ∧
        ∀ v ∈ result, v.Of K (.scalar r.termKind)) K.Excuses := by
  induction indices generalizing acc with
  | nil =>
    rw [reduceTerms]
    exact ⟨by simp, accValid⟩
  | cons i is ih =>
    rw [reduceTerms]
    refine .bind ((pick_gives own (small i (by simp))).imp fun picked hp => ?_)
    refine .bind ((reduceTerm_gives closed supports hp.1 (hp.2.trans arity) target).imp
      fun term ht => ?_)
    have rest := fun j (member : j ∈ is) => small j (by simp [member])
    have step (v : Value) (hv : v.Of K (.scalar r.termKind)) :
        Gives (reduceTerms target r k parts (some v) is)
          (fun result => (acc ≠ none ∨ i :: is ≠ [] → result ≠ none) ∧
            ∀ v ∈ result, v.Of K (.scalar r.termKind)) K.Excuses := by
      refine (@ih (some v) ?_ rest).imp fun result h => ⟨fun _ => h.1 (.inl (by simp)), h.2⟩
      rintro _ ⟨⟩
      exact hv
    cases acc with
    | none => exact step term ht
    | some v =>
      have joined := scalarOp_gives closed (r.join_supports) (scalars_pair (accValid v rfl) ht)
        (by cases r <;> rfl) target
      rw [r.join_resultKind] at joined
      exact .bind (joined.imp step)

theorem reduceEnd_gives (closed : K.Closed) {r : Reduction} {v : Value}
    (own : v.Of K (.scalar r.termKind)) (target : Target) :
    Gives (reduceEnd target r v) (Value.Of K r.resultTy) K.Excuses := by
  cases r with
  | eq | approx | dot => exact own
  | ne =>
    have not : ScalarOp.not.Supports .bool := ScalarOp.supports_bool (by decide)
    exact scalarOp_gives closed not (scalars_single own) rfl target
  | length =>
    have sqrt : ScalarOp.sqrt.Supports .float := ScalarOp.supports_float (by decide)
    exact scalarOp_gives closed sqrt (scalars_single own) rfl target

/-- Operands of a reduction have one type. -/
theorem checkSameTy_gives (closed : K.Closed) {k : ScalarKind} {r : Reduction} {args : List Value}
    (own : ∀ v ∈ args, v.Shaped K k) (arity : args.length = r.arity) :
    Gives (checkSameTy args) (fun _ => ∃ t width, args.head?.bind (fun v => v.ty.shape?) =
      some (k, width) ∧ Shared K k args t width) K.Excuses := by
  match args with
  | [] => cases r <;> simp [Reduction.arity] at arity
  | [a] =>
    obtain ⟨valid, w, shape⟩ := own a (by simp)
    refine ⟨a.ty, w, shape, valid.ty, shape, fun v member => ?_⟩
    rw [List.mem_singleton.mp member]
    exact .inl ⟨valid, rfl⟩
  | [a, b] =>
    obtain ⟨valid, w, shape⟩ := own a (by simp)
    have validB := (own b (by simp)).1
    rw [checkSameTy]
    split
    case isFalse => exact K.excuses_problem _
    case isTrue same =>
      have equal := closed.eq_of_same valid.ty validB.ty same
      refine ⟨a.ty, w, shape, valid.ty, shape, fun v member => .inl ?_⟩
      rcases List.mem_cons.mp member with rfl | rest
      · exact ⟨valid, rfl⟩
      · rw [List.mem_singleton.mp rest]
        exact ⟨validB, equal.symm⟩
  | _ :: _ :: _ :: _ => cases r <;> simp [Reduction.arity] at arity

theorem max?_bounds {k : ScalarKind} {width : Nat} {parts : List (List Value)} (wide : 1 ≤ width)
    (own : ∀ part ∈ parts, Value.Scalars K k part ∧ (part.length = width ∨ part.length = 1)) :
    1 ≤ ((parts.map List.length).max?).getD 1 ∧ ((parts.map List.length).max?).getD 1 ≤ width := by
  cases found : (parts.map List.length).max? with
  | none => simpa using wide
  | some n =>
    obtain ⟨part, member, rfl⟩ := List.mem_map.mp (List.max?_mem found)
    rcases (own part member).2 with h | h <;> simp [h, wide]

end Emit

namespace Safe

open Emit

variable {K : Known}

theorem reduceScalars {r : Reduction} {k : ScalarKind} {args : List Value} {t : Ty} {width : Nat}
    (supports : r.Supports k) (shared : Shared K k args t width) (arity : args.length = r.arity)
    (target : Target) : Safe K (Emit.reduceScalars target r k args) fun L v => v.Of L r.resultTy := by
  have wide := (Ty.shape?_bounds shared.shape).1
  unfold Emit.reduceScalars
  refine bind (components shared target) fun L _ closed parts decomposed => ?_
  obtain ⟨one, small⟩ := max?_bounds wide decomposed.2
  refine bind (lift (Q := fun M result => result ≠ none ∧
    ∀ v ∈ result, v.Of M (.scalar r.termKind)) ?_) fun M _ closedM result terms => ?_
  · refine (reduceTerms_gives closed supports decomposed.2 (decomposed.1.trans arity) (by simp)
      ?_ target).imp fun result h => ⟨h.1 (.inr ?_), h.2⟩
    · intro i member
      exact (List.mem_range.mp member).trans_le small
    · rw [Ne, List.range_eq_nil]
      omega
  · cases result with
    | none => simp at terms
    | some v => exact lift (reduceEnd_gives closedM (terms.2 v rfl) target)

theorem reduce {r : Reduction} {k : ScalarKind} {args : List Value} (supports : r.Supports k)
    (own : ∀ v ∈ args, v.Shaped K k) (arity : args.length = r.arity) (target : Target) :
    Safe K (Emit.reduce target r args) fun L v => v.Of L r.resultTy := by
  refine of_closed fun closed => ?_
  unfold Emit.reduce
  have kept : r.resultTy.isVoid = false := by rw [r.resultTy_eq]; rfl
  have simple (L : Known) : r.resultTy.Over L := by rw [r.resultTy_eq]; trivial
  refine bind (lift (Q := fun L _ => ∃ t width, args.head?.bind (fun v => v.ty.shape?) =
    some (k, width) ∧ Shared L k args t width) (checkSameTy_gives closed own arity))
    fun L sub closedL _ found => ?_
  obtain ⟨t, width, head, shared⟩ := found
  rw [head]
  dsimp only
  split
  · have codes : Safe L (args.mapM fun v => liftM (v.toCode target) : Emit (List Code))
        fun _ _ => True := by
      have keptT := closedL.not_void_of_shape shared.valid shared.shape
      refine (mapM (R := fun _ _ _ => True) (fun _ _ _ _ _ h => h) fun M sub' v member => ?_).mono
        fun _ _ _ _ => trivial
      rcases (shared.mono sub').each v member with vector | scalar
      · exact toCode vector keptT target
      · exact toCode scalar rfl target
    refine bind codes fun M sub' _ texts _ => ?_
    rw [pure_bind]
    split
    · exact pure (Value.Of.code (simple M) kept)
    · exact reduceScalars supports (shared.mono sub') arity target
  · rw [pure_bind]
    exact reduceScalars supports shared arity target

theorem normalize {v : Value} (own : v.Shaped K .float) (target : Target) :
    Safe K (Emit.normalize target v) fun L w => w.Of L v.ty := by
  refine of_closed fun closed => ?_
  obtain ⟨valid, width, shape⟩ := own
  have typed : v.Of K v.ty := ⟨valid, rfl⟩
  have kept := closed.not_void_of_shape valid.ty shape
  unfold Emit.normalize
  split
  · refine bind (toCode typed kept target) fun L sub _ c _ => ?_
    exact pure (Value.Of.code (valid.ty.mono sub) kept)
  · refine bind (cache typed target) fun L sub _ u own => ?_
    refine bind (reduce (r := .length) rfl (by simpa using own.shaped shape) rfl target)
      fun M sub' _ n length => ?_
    refine bind (cache length target) fun N sub'' _ m length => ?_
    have div : ScalarOp.div.Supports .float := ScalarOp.supports_float (by decide)
    have own := own.mono (sub'.trans sub'')
    rw [← own.2]
    exact mapOp_scalar div rfl rfl (own.shaped shape) length target

end Safe

/-! ## Matrices -/

/-- The columns of a matrix have one height. -/
theorem Struct.Laid.columns {s : Struct} (laid : s.Laid) (matrix : s.matrix = true) :
    ∃ h, 2 ≤ h ∧ h ≤ 4 ∧ Field.kept s.fields ≠ [] ∧
      ∀ f ∈ Field.kept s.fields, f.ty.shape? = some (.float, h) := by
  have checked : Struct.checkMatrix ⟨s.name, s.fields⟩ = .ok () := by
    unfold Struct.Laid Struct.layoutsOf at laid
    rw [matrix] at laid
    cases checked : Struct.checkMatrix ⟨s.name, s.fields⟩ with
    | ok _ => rfl
    | error f => simp [checked, bind, Except.bind] at laid
  unfold Struct.checkMatrix at checked
  dsimp only at checked
  split at checked
  case isFalse => simp at checked
  case isTrue count =>
    change 2 ≤ (Field.kept s.fields).length ∧ (Field.kept s.fields).length ≤ 4 at count
    have nonempty : Field.kept s.fields ≠ [] := by
      intro empty
      simp [empty] at count
    obtain ⟨h, wide, small, _, shapes⟩ := Struct.checkColumns_ok checked nonempty
    exact ⟨h, wide, small, nonempty, shapes⟩

namespace Emit

variable {K : Known}

theorem rowProduct_gives (closed : K.Closed) {row height : Nat} {acc : Option Value}
    {columns : List (List Value)} {scales : List Value} (small : row < height)
    (own : ∀ c ∈ columns, Value.Scalars K .float c ∧ c.length = height)
    (ownScales : Value.Scalars K .float scales) (accValid : ∀ v ∈ acc, v.Of K .f32)
    (some_term : acc ≠ none ∨ (columns ≠ [] ∧ scales ≠ [])) (target : Target) :
    Gives (rowProduct target row acc columns scales) (Value.Of K .f32) K.Excuses := by
  have mul : ScalarOp.mul.Supports .float := ScalarOp.supports_float (by decide)
  have add : ScalarOp.add.Supports .float := ScalarOp.supports_float (by decide)
  induction columns generalizing acc scales with
  | nil =>
    cases acc with
    | none => simp at some_term
    | some v =>
      rw [rowProduct.eq_def]
      exact accValid v rfl
  | cons column cs ih =>
    cases scales with
    | nil =>
      cases acc with
      | none => simp at some_term
      | some v =>
        rw [rowProduct.eq_def]
        exact accValid v rfl
    | cons s ss =>
      have lt : row < column.length := (own column (by simp)).2.symm ▸ small
      have entry : (column[row]).Of K .f32 := (own column (by simp)).1 _ (List.getElem_mem lt)
      have scale : s.Of K .f32 := ownScales s (by simp)
      rw [rowProduct.eq_def]
      dsimp only
      rw [List.getElem?_eq_getElem lt]
      dsimp only
      refine .bind ((scalarOp_gives closed mul (scalars_pair entry scale) rfl target).imp
        fun term ht => ?_)
      have step (v : Value) (hv : v.Of K .f32) :
          Gives (rowProduct target row (some v) cs ss) (Value.Of K .f32) K.Excuses := by
        refine ih (fun c member => own c (by simp [member]))
          (fun u member => ownScales u (by simp [member])) ?_ (.inl (by simp))
        rintro _ ⟨⟩
        exact hv
      cases acc with
      | none => exact step term ht
      | some v =>
        exact .bind ((scalarOp_gives closed add (scalars_pair (accValid v rfl) ht) rfl target).imp step)

end Emit

namespace Safe

open Emit

variable {K : Known}

theorem columns {s : Struct} {height i : Nat} {fs : List Field} {m : Value} (h : m.Of K (.struct s))
    (rest : s.fields.drop i = fs) (shapes : ∀ f ∈ Field.kept fs, f.ty.shape? = some (.float, height))
    (target : Target) :
    Safe K (Emit.columns target m i fs) fun L cols => cols.length = (Field.kept fs).length ∧
      ∀ c ∈ cols, Value.Scalars L .float c ∧ c.length = height := by
  induction fs generalizing K i with
  | nil => exact pure ⟨rfl, by simp⟩
  | cons f fs ih =>
    obtain ⟨found, rest'⟩ := getElem?_of_drop rest
    rw [Emit.columns]
    cases void : f.ty.isVoid with
    | true =>
      rw [if_pos rfl]
      refine (ih h rest' (by simpa [Field.kept, void] using shapes)).mono fun L _ cols own => ?_
      simpa [Field.kept, void] using own
    | false =>
      rw [if_neg Bool.false_ne_true]
      simp only [Field.kept, void, Bool.not_false, List.filter_cons_of_pos, List.mem_cons,
        forall_eq_or_imp] at shapes
      refine bind (field h rfl found target) fun L sub _ part own => ?_
      refine bind (scalars own shapes.1 target) fun M sub' _ column scalars => ?_
      refine bind (ih (h.mono (sub.trans sub')) rest' shapes.2) fun N sub'' _ cols own => ?_
      refine pure ⟨by simp [Field.kept, void, own.1], fun c member => ?_⟩
      rcases List.mem_cons.mp member with rfl | later
      · exact ⟨scalars.1.mono sub'', scalars.2⟩
      · exact own.2 c later

theorem multiplyScalars {s : Struct} {t : Ty} {w : Nat} {m v : Value} (known : m.Of K (.struct s))
    (matrix : s.matrix = true) (own : v.Of K t) (shape : t.shape? = some (.float, w))
    (target : Target) : Safe K (Emit.multiplyScalars target s m v) fun L u => u.Over L := by
  refine of_closed fun closed => ?_
  obtain ⟨height, _, _, nonempty, shapes⟩ :=
    (closed.laid s known.ty_over).columns matrix
  unfold Emit.multiplyScalars
  refine bind (cache known target) fun L sub _ m' known => ?_
  refine bind (cache (own.mono sub) target) fun M sub' _ v' own' => ?_
  refine bind (scalars own' shape target) fun N sub'' _ scales hs => ?_
  refine bind (columns (known.mono (sub'.trans sub'')) List.drop_zero shapes target)
    fun P sub3 closedP cols hc => ?_
  have some_column : cols ≠ [] := by
    rintro rfl
    exact nonempty (List.length_eq_zero_iff.mp hc.1.symm)
  have some_scale : scales ≠ [] := by
    rintro rfl
    have wide := (Ty.shape?_bounds shape).1
    have length := hs.2
    simp at length
    omega
  have rows : (cols.head?.map List.length).getD 0 = height := by
    cases cols with
    | nil => simp at some_column
    | cons c cs => simp [(hc.2 c (by simp)).2]
  dsimp only
  rw [rows]
  refine bind (mapM (R := fun L _ u => u.Over L ∧ u.ty = .f32) ?_ ?_)
    fun Q sub4 closedQ results related => ?_
  · rintro L M sub i u ⟨valid, ty⟩
    exact ⟨valid.mono sub, ty⟩
  · intro Q sub4 row member
    refine of_closed fun closedQ => lift ?_
    exact rowProduct_gives closedQ (List.mem_range.mp member)
      (fun c h => ⟨(hc.2 c h).1.mono sub4, (hc.2 c h).2⟩) (hs.1.mono (sub3.trans sub4)) (by simp)
      (.inr ⟨some_column, some_scale⟩) target
  · refine bind (vectorTy .float height) fun T sub5 closedT ty vector => ?_
    refine lift (.of_exists ?_)
    obtain ⟨u, run, own, _⟩ := closedT.fromScalars_ok vector.1 vector.2
      (by rw [← related.length_eq, List.length_range]) (fun u member => by
        obtain ⟨_, _, h⟩ := exists_left_of_forall₂ related member
        exact ⟨h.1.mono sub5, h.2⟩) target
    exact ⟨u, run, own⟩

theorem matrixProduct {s : Struct} {t : Ty} {w : Nat} {m v : Value} (known : m.Of K (.struct s))
    (matrix : s.matrix = true) (own : v.Of K t) (shape : t.shape? = some (.float, w))
    (target : Target) : Safe K (Emit.matrixProduct target m v) fun L u => u.Over L := by
  refine of_closed fun closed => ?_
  have s_known : K s := known.ty_over
  obtain ⟨_, _, _, nonempty, _⟩ := (closed.laid s s_known).columns matrix
  have keptM : (Ty.struct s).isVoid = false := (closed.kept_ne_nil s_known).mp nonempty
  have keptV := closed.not_void_of_shape own.ty_over shape
  unfold Emit.matrixProduct
  split
  · refine bind (toCode known keptM target) fun L sub _ _ _ => ?_
    refine bind (toCode (own.mono sub) keptV target) fun M sub' _ _ _ => ?_
    rw [own.2]
    exact pure (Value.Of.code (own.ty_over.mono (sub.trans sub')) keptV).1
  · rw [known.2]
    exact multiplyScalars known matrix own shape target

theorem count (v : Value) : Safe K (liftM (Emit.count v)) fun L w => w.Over L := by
  refine lift ?_
  unfold Emit.count
  split
  · exact (Value.Of.int _).1
  · exact (Value.Of.int _).1
  · exact K.excuses_problem _

theorem cast {source goal : ScalarKind} {v : Value} (number : source.IsNumber)
    (number' : goal.IsNumber) (own : v.Of K (.scalar source)) (target : Target) :
    Safe K (liftM (Emit.cast target source goal v)) fun L w => w.Over L := by
  refine lift ?_
  obtain ⟨payload, ty, place⟩ := v
  obtain ⟨valid, rfl⟩ : Value.Over K ⟨payload, ty, place⟩ ∧ ty = .scalar source := own
  unfold Emit.cast
  split
  · exact valid
  · rename_i differ
    cases payload with
    | code c => exact Value.over_code trivial rfl
    | const c =>
      have holds := valid.const c rfl
      simp only [Ty.Holds] at holds
      obtain ⟨x, rfl, kind⟩ := holds
      cases x with
      | float f =>
        cases kind
        cases goal with
        | int => exact (Value.Of.int _).1
        | float => exact absurd rfl differ
        | bool => simp [ScalarKind.IsNumber] at number'
      | int n =>
        cases kind
        cases goal with
        | int => exact absurd rfl differ
        | float => exact (Value.Of.float _).1
        | bool => simp [ScalarKind.IsNumber] at number'
      | bool b =>
        cases kind
        simp [ScalarKind.IsNumber, Scalar.kind] at number

end Safe
end Ember
