import Ember.Proofs.Safe.Broadcast
import Ember.Proofs.Safe.Start

/-!
# Operations on constant vectors, component by component

A constant of a type with a shape comes apart into scalars, and scalars are put together to such a
constant. So an operation on constants is computed at each component alone, whatever the fields of
the type are and wherever some of them keep nothing; a scalar counts for every component. It fails
where the computation of some component does.
-/

set_option autoImplicit false

namespace Ember

def Value.Is (k : ScalarKind) (x : Scalar) (v : Value) : Prop :=
  v.payload = .const (.scalar x) ∧ v.ty = .scalar k

/-- The scalars that a constant of a type comes apart into, on every target. They name no place
unless the constant does. -/
def Ty.Yields (k : ScalarKind) (t : Ty) (c : Constant) (xs : List Scalar) : Prop :=
  ∀ (target : Target) (v : Value), v.payload = .const c → v.ty = t →
    ∃ us, Emit.scalarsAt target t v = pure us ∧ List.Forall₂ (Value.Is k) xs us ∧
      (v.assignable = false → ∀ u ∈ us, u.assignable = false)

inductive Field.Parts (k : ScalarKind) : List Field → List Constant → List Scalar → Prop
  | nil : Parts k [] [] []
  | void {f : Field} {fs : List Field} {c : Constant} {cs : List Constant} {xs : List Scalar}
      (void : f.ty.isVoid = true) (rest : Parts k fs cs xs) : Parts k (f :: fs) (c :: cs) xs
  | kept {f : Field} {fs : List Field} {c : Constant} {cs : List Constant} {xs ys : List Scalar}
      (kept : f.ty.isVoid = false) (own : f.ty.Yields k c xs) (rest : Parts k fs cs ys) :
      Parts k (f :: fs) (c :: cs) (xs ++ ys)

/-! ## Coming apart -/

namespace Emit

variable {k : ScalarKind} {target : Target}

theorem cache_const {v : Value} {c : Constant} (const : v.payload = .const c) (target : Target) :
    cache target v = pure v := by
  simp [cache, Value.isSimple, const]

theorem fieldScalars_of_parts {s : Struct} {v : Value} {all : List Constant}
    (const : v.payload = .const (.aggregate all)) (ty : v.ty = .struct s) {fs : List Field}
    {cs : List Constant} {xs : List Scalar} {i : Nat} (parts : Field.Parts k fs cs xs)
    (fields : s.fields.drop i = fs) (items : all.drop i = cs) (target : Target) :
    ∃ us, fieldScalars target i fs v = pure us ∧ List.Forall₂ (Value.Is k) xs us ∧
      ∀ u ∈ us, u.assignable = false := by
  induction parts generalizing i with
  | nil => exact ⟨[], by rw [fieldScalars], .nil, nofun⟩
  | @void f _ _ _ _ void _ ih =>
    obtain ⟨us, run, are⟩ := ih (getElem?_of_drop fields).2 (getElem?_of_drop items).2
    obtain ⟨name, type⟩ := f
    exact ⟨us, by rw [fieldScalars, if_pos void, run], are⟩
  | @kept f _ c _ _ _ kept own _ ih =>
    obtain ⟨at_i, fields⟩ := getElem?_of_drop fields
    obtain ⟨item, items⟩ := getElem?_of_drop items
    obtain ⟨us, run, are, placeless⟩ := ih fields items
    obtain ⟨name, type⟩ := f
    have read : v.field target i = .ok (.const c type) := by
      simp [Value.field, ty, Ty.struct?, at_i, const, Code.items, item, bind, Except.bind, pure,
        Except.pure]
    have lifted : (liftM (v.field target i) : Emit Value) = pure (.const c type) := by
      rw [read]
      rfl
    obtain ⟨ws, first, are', placeless'⟩ := own target (.const c type) rfl rfl
    refine ⟨ws ++ us, ?_, List.rel_append are' are,
      List.forall_mem_append.mpr ⟨placeless' rfl, placeless⟩⟩
    rw [fieldScalars, if_neg (by simp [kept]), lifted, pure_bind, first, pure_bind, run, pure_bind]

end Emit

theorem Struct.yields {k : ScalarKind} {s : Struct} {cs : List Constant} {xs : List Scalar}
    (shaped : s.shape?.isSome = true) (parts : Field.Parts k s.fields cs xs) :
    (Ty.struct s).Yields k (.aggregate cs) xs := by
  intro target v const ty
  obtain ⟨us, run, are, placeless⟩ :=
    Emit.fieldScalars_of_parts const ty parts (i := 0) rfl rfl target
  refine ⟨us, ?_, are, fun _ => placeless⟩
  rw [Emit.scalarsAt, if_pos (by rwa [Ty.shape?])]
  obtain ⟨uid, group, name, fields, matrix, js, glsl⟩ := s
  rw [Emit.structScalars, Emit.cache_const const, pure_bind]
  exact run

/-- The scalars of fields that have constants. -/
theorem Field.exists_parts {k : ScalarKind} {fs : List Field} {cs : List Constant} {ws : List Nat}
    (each : ∀ f ∈ fs, ∀ {w : Nat} {c : Constant}, f.ty.shape? = some (k, w) → f.ty.Holds c →
      ∃ xs, f.ty.Yields k c xs ∧ xs.length = w ∧ ∀ x ∈ xs, x.kind = k)
    (shapes : (Field.kept fs).map (fun f => f.ty.shape?) = ws.map (fun w => some (k, w)))
    (holds : List.Forall₂ (fun f c => f.ty.Holds c) fs cs) :
    ∃ xs, Field.Parts k fs cs xs ∧ xs.length = ws.sum ∧ ∀ x ∈ xs, x.kind = k := by
  induction holds generalizing ws with
  | nil =>
    obtain rfl : ws = [] := by simpa [Field.kept] using shapes.symm
    exact ⟨[], .nil, rfl, by simp⟩
  | @cons f c fs cs own _ ih =>
    have rest := fun g (member : g ∈ fs) => @each g (by simp [member])
    cases void : f.ty.isVoid with
    | true =>
      obtain ⟨xs, parts, counted⟩ := ih rest (by simpa [Field.kept, void] using shapes)
      exact ⟨xs, .void void parts, counted⟩
    | false =>
      cases ws with
      | nil => simp [Field.kept, void] at shapes
      | cons w ws =>
        simp only [Field.kept, void, Bool.not_false, List.filter_cons_of_pos, List.map_cons,
          List.cons.injEq] at shapes
        obtain ⟨xs, yields, length, kinds⟩ := each f (by simp) shapes.1 own
        obtain ⟨ys, parts, length', kinds'⟩ := ih rest shapes.2
        refine ⟨xs ++ ys, .kept void yields parts, by simp [length, length'], ?_⟩
        exact List.forall_mem_append.mpr ⟨kinds, kinds'⟩

theorem Ty.Holds.yields {t : Ty} {k : ScalarKind} {w : Nat} {c : Constant}
    (shape : t.shape? = some (k, w)) (holds : t.Holds c) :
    ∃ xs, t.Yields k c xs ∧ xs.length = w ∧ ∀ x ∈ xs, x.kind = k := by
  induction t using Ty.induct generalizing w c with
  | scalar k' =>
    simp only [Ty.shape?, Option.some.injEq, Prod.mk.injEq] at shape
    obtain ⟨rfl, rfl⟩ := shape
    obtain ⟨x, rfl, kind⟩ := holds
    refine ⟨[x], fun target v const ty => ⟨[v], by rw [Emit.scalarsAt], ?_, by simp⟩, rfl, ?_⟩
    · exact .cons ⟨const, ty⟩ .nil
    · simpa using kind
  | struct s ih =>
    rw [Ty.shape?] at shape
    obtain ⟨_, _, _, ws, _, rfl, shapes⟩ := Struct.shape?_some shape
    obtain ⟨cs, rfl, all⟩ := (Struct.holds_iff s c).mp holds
    obtain ⟨xs, parts, counted⟩ := Field.exists_parts
      (fun f member _ _ shape holds => ih f member shape holds) shapes all
    exact ⟨xs, Struct.yields (by simp [shape]) parts, counted⟩
  | array of len _ => simp [Ty.shape?] at shape
  | alt first others _ _ => simp [Ty.shape?] at shape

/-! ## Putting together -/

def Value.Comes (k : ScalarKind) (t : Ty) (xs : List Scalar) (v : Value) : Prop :=
  v.ty = t ∧ ∃ c, v.payload = .const c ∧ t.Yields k c xs

theorem Field.Filled.parts {k : ScalarKind} {fs : List Field} {xs : List Scalar} {vs : List Value}
    (filled : Field.Filled (Value.Comes k) fs xs vs) :
    ∃ cs, Value.consts? vs = some cs ∧ Field.Parts k fs cs xs := by
  induction filled with
  | nil => exact ⟨[], rfl, .nil⟩
  | @void f _ _ _ void _ ih =>
    obtain ⟨cs, consts, parts⟩ := ih
    refine ⟨f.ty.zero :: cs, ?_, .void void parts⟩
    simp only [Value.consts?] at consts
    simp [Value.consts?, consts, Value.const?, Value.const]
  | kept kept own _ ih =>
    obtain ⟨_, c, payload, yields⟩ := own
    obtain ⟨cs, consts, parts⟩ := ih
    refine ⟨c :: cs, ?_, .kept kept yields parts⟩
    simp only [Value.consts?] at consts
    simp [Value.consts?, consts, Value.const?_eq_some.mpr payload]

/-- Scalars make a constant that comes apart into them. -/
theorem Value.fromScalars_comes {t : Ty} {k : ScalarKind} {us : List Value} {xs : List Scalar}
    (shape : t.shape? = some (k, us.length)) (are : List.Forall₂ (Value.Is k) xs us)
    (target : Target) : ∃ v, fromScalars target t us = .ok v ∧ v.Comes k t xs := by
  have struct (s : Struct) (w : Nat) (xs : List Scalar) (vs : List Value) (_ : True)
      (shape : s.shape? = some (k, w)) (filled : Field.Filled (Value.Comes k) s.fields xs vs) :
      ∃ v, construct target s vs = .ok v ∧ v.Comes k (.struct s) xs := by
    obtain ⟨cs, consts, parts⟩ := filled.parts
    refine ⟨.const (.aggregate cs) (.struct s), by rw [construct, consts], rfl, _, rfl, ?_⟩
    exact Struct.yields (by simp [shape]) parts
  have scalar (u : Value) (x : Scalar) (is : Value.Is k x u) : u.Comes k (.scalar k) [x] :=
    ⟨is.2, _, is.1, fun target v const ty =>
      ⟨[v], by rw [Emit.scalarsAt], .cons ⟨const, ty⟩ .nil, by simp⟩⟩
  obtain ⟨v, run, comes⟩ := ofScalars_made (P := fun _ => True) (fun _ _ _ _ => trivial)
    scalar struct trivial shape rfl are.flip []
  rw [List.append_nil] at run
  exact ⟨v, by simp [fromScalars, run, Except.map], comes⟩

/-! ## Operations -/

namespace Emit

/-- What an operand counts for at a component: a scalar for itself, others for the scalar there. -/
def component? (target : Target) (s : Emission) (i : Nat) (v : Value) : Option Constant :=
  match scalars target v s with
  | .ok us _ => us[if v.ty.isScalar then 0 else i]?.bind Value.const?
  | .error _ _ => none

def FoldsAt (target : Target) (s : Emission) (op : ScalarOp) (args : List Value) (i : Nat)
    (r : Except Failure Constant) : Prop :=
  ∃ cs, args.mapM (component? target s i) = some cs ∧ op.fold cs = r

/-- How many components operands have, if those that are no scalars have `w`. -/
def operandWidth (args : List Value) (w : Nat) : Nat := if args.all (·.ty.isScalar) then 1 else w

theorem shapedTy_of_shared {t : Ty} {args : List Value}
    (each : ∀ v ∈ args, v.ty.isScalar = false → v.ty = t) {found : Option Ty}
    (before : ∀ u ∈ found, u = t) :
    shapedTy found args = .ok (if args.all (·.ty.isScalar) then found else some t) := by
  induction args generalizing found with
  | nil => rfl
  | cons v vs ih =>
    have rest := fun u (member : u ∈ vs) => each u (by simp [member])
    rw [shapedTy.eq_def]
    dsimp only
    cases scalar : v.ty.isScalar with
    | true => simpa [scalar] using ih rest before
    | false =>
      obtain rfl := each v (by simp) scalar
      have after : shapedTy (some v.ty) vs = _ := ih rest (by simp)
      cases found with
      | none => simpa [scalar] using after
      | some u =>
        obtain rfl := before u rfl
        simpa [scalar, Ty.beq_self] using after

structure Operand (target : Target) (k : ScalarKind) (width : Nat) (v : Value) (us : List Value) :
    Prop where
  isConst : v.isConst = true
  cached : cache target v = pure v
  apart : scalars target v = pure us
  count : us.length = if v.ty.isScalar then 1 else width
  known : ∀ u ∈ us, ∃ x, Value.Is k x u ∧ x.kind = k

variable {target : Target} {k : ScalarKind} {width : Nat} {args : List Value}
  {parts : List (List Value)} {op : ScalarOp}

theorem exists_operand {v : Value} {c : Constant} {n : Nat} (const : v.payload = .const c)
    (holds : v.ty.Holds c) (shape : v.ty.shape? = some (k, n))
    (count : n = if v.ty.isScalar then 1 else width) (target : Target) :
    ∃ us, Operand target k width v us := by
  obtain ⟨xs, yields, length, kinds⟩ := holds.yields shape
  obtain ⟨us, apart, are, _⟩ := yields target v const rfl
  refine ⟨us, by simp [Value.isConst, Value.const?, const], cache_const const target, apart, ?_, ?_⟩
  · rw [← are.length_eq, length, count]
  · intro u member
    obtain ⟨x, among, is⟩ := exists_left_of_forall₂ are member
    exact ⟨x, is, kinds x among⟩

/-- The scalar that an operand counts for. -/
theorem Operand.component {v : Value} {us : List Value} (operand : Operand target k width v us)
    {i : Nat} (inside : i < width) (s : Emission) :
    ∃ u x, pick [us] i = .ok [u] ∧ Value.Is k x u ∧ x.kind = k ∧
      us[if v.ty.isScalar then 0 else i]? = some u ∧
      component? target s i v = some (.scalar x) := by
  have count := operand.count
  have placed : (if v.ty.isScalar then 0 else i) < us.length := by
    rw [count]
    split <;> omega
  obtain ⟨x, is, kind⟩ := operand.known _ (List.getElem_mem placed)
  have found := List.getElem?_eq_getElem placed
  refine ⟨_, x, pick_one found ?_, is, kind, found, ?_⟩
  · cases scalar : v.ty.isScalar with
    | true => exact .inl (by simpa [scalar] using count)
    | false => exact .inr (by simp)
  · have run : scalars target v s = .ok us s := by
      rw [operand.apart]
      rfl
    simp only [component?, run, found, Option.bind_some]
    exact Value.const?_eq_some.mpr is.1

theorem pick_operands (each : List.Forall₂ (Operand target k width) args parts) {i : Nat}
    (inside : i < width) (s : Emission) :
    ∃ row xs, pick parts i = .ok row ∧ List.Forall₂ (Value.Is k) xs row ∧
      row.length = args.length ∧ args.mapM (component? target s i) = some (xs.map .scalar) := by
  induction each with
  | nil => exact ⟨[], [], rfl, .nil, rfl, rfl⟩
  | cons operand _ ih =>
    obtain ⟨u, x, one, is, _, _, component⟩ := operand.component inside s
    obtain ⟨row, xs, rest, are, length, components⟩ := ih
    refine ⟨u :: row, x :: xs, mapM_cons_ok one rest, .cons is are, by simp [length], ?_⟩
    simp [component, components]

theorem consts?_of_known {xs : List Scalar} {row : List Value}
    (are : List.Forall₂ (Value.Is k) xs row) : Value.consts? row = some (xs.map .scalar) := by
  induction are with
  | nil => rfl
  | cons is _ ih =>
    simp only [Value.consts?] at ih
    simp [Value.consts?, ih, Value.const?_eq_some.mpr is.1]

/-- An operation on known scalars is computed. -/
theorem scalarOp_known {xs : List Scalar} {row : List Value}
    (are : List.Forall₂ (Value.Is k) xs row) (nonempty : row ≠ []) (target : Target)
    (op : ScalarOp) :
    scalarOp target op row =
      (op.fold (xs.map .scalar)).map fun c => .const c (.scalar (op.resultKind k)) := by
  have kind : row.head?.bind (fun v => v.ty.scalarKind?) = some k := by
    cases are with
    | nil => contradiction
    | cons is _ => simp [is.2, Ty.scalarKind?]
  rw [scalarOp, kind]
  simp only [consts?_of_known are]
  cases op.fold (xs.map .scalar) <;> rfl

theorem fold_ok {cs : List Constant} {c : Constant} (run : op.fold cs = .ok c) :
    ∃ x, c = .scalar x := by
  unfold ScalarOp.fold at run
  dsimp only at run
  split at run
  · cases run
  · split at run
    · cases run
    · split at run
      · cases run
        exact ⟨_, rfl⟩
      · cases run

theorem components_run (each : List.Forall₂ (Operand target k width) args parts) :
    components target args = pure parts := by
  induction each with
  | nil => rfl
  | cons operand _ ih =>
    rw [components, operand.cached, pure_bind, operand.apart, pure_bind, ih, pure_bind]

/-- The results for all components, or the failure of one. -/
theorem results_ends (each : List.Forall₂ (Operand target k width) args parts)
    (nonempty : args ≠ []) (s : Emission) (op : ScalarOp) :
    Ends ((List.range width).mapM fun i => do liftM (scalarOp target op (← pick parts i)) :
        Emit (List Value)) s
      (fun vs t => t = s ∧ List.Forall₂ (fun i v => ∃ x, Value.Is (op.resultKind k) x v ∧
        FoldsAt target s op args i (.ok (.scalar x))) (List.range width) vs)
      (fun f t => t = s ∧ ∃ i < width, FoldsAt target s op args i (.error f)) := by
  refine (Ends.mapM_still (R := fun i v => ∃ x, Value.Is (op.resultKind k) x v ∧
    FoldsAt target s op args i (.ok (.scalar x))) fun i member => ?_)
  have inside : i < width := List.mem_range.mp member
  obtain ⟨row, xs, picked, are, length, components⟩ := pick_operands each inside s
  have some_row : row ≠ [] := by
    rintro rfl
    exact nonempty (List.length_eq_zero_iff.mp length.symm)
  refine Ends.bind (Ends.lift (.of_ok picked ?_))
  refine Ends.lift ?_
  rw [scalarOp_known are some_row]
  cases run : op.fold (xs.map .scalar) with
  | error f => exact ⟨rfl, i, inside, _, components, run⟩
  | ok c =>
    obtain ⟨x, rfl⟩ := fold_ok run
    exact ⟨rfl, x, ⟨rfl, rfl⟩, _, components, run⟩

/-- Whole numbers divided by zero. -/
theorem fold_by_zero (divides : op.divides = true) (n : Int32) :
    op.fold [.scalar (.int n), .scalar (.int 0)] = .error (.problem .divisionByZero) := by
  simp [ScalarOp.fold, Constant.scalar?, ScalarOp.byZero, divides]

theorem checkDivisor_ends (each : List.Forall₂ (Operand target k width) args parts)
    (wide : 0 < width) (arity : args.length = op.arity) (s : Emission) :
    Ends (checkDivisor target op k args) s (fun _ t => t = s)
      (fun f t => t = s ∧ ∃ i < width, FoldsAt target s op args i (.error f)) := by
  unfold checkDivisor
  split
  case isFalse => exact Ends.pure rfl
  case isTrue both =>
    obtain ⟨divides, rfl⟩ : op.divides = true ∧ k = .int := by simpa using both
    clear both
    obtain ⟨a, b, rfl⟩ : ∃ a b, args = [a, b] := by
      rw [← List.length_eq_two, arity]
      revert divides
      cases op <;> decide
    cases each with
    | cons first rest =>
    cases rest with
    | @cons _ us _ parts second none_left =>
    cases none_left
    simp only [List.getElem?_cons_succ, List.getElem?_cons_zero, second.isConst, if_true]
    rw [second.apart, pure_bind]
    split
    case isFalse => exact Ends.pure rfl
    case isTrue zero =>
      obtain ⟨u, member, zero⟩ := List.any_eq_true.mp zero
      obtain ⟨j, found⟩ := List.getElem?_of_mem member
      have place : (if b.ty.isScalar then 0 else j) = j ∧ j < width := by
        have inside := (List.getElem?_eq_some_iff.mp found).1
        rw [second.count] at inside
        split at inside <;> simp_all
      obtain ⟨_, x, _, _, kind, _, dividend⟩ := first.component place.2 s
      obtain ⟨v, y, _, is, kind', found', divisor⟩ := second.component place.2 s
      rw [place.1, found] at found'
      obtain rfl : u = v := Option.some.inj found'
      obtain ⟨n, rfl⟩ : ∃ n, x = .int n := by cases x <;> simp_all [Scalar.kind]
      obtain rfl : y = .int 0 := by
        cases y <;> simp_all [Scalar.kind, isZero, Value.const?_eq_some.mpr is.1, Constant.same,
          Scalar.same]
      refine Ends.throw ⟨rfl, j, place.2, [.scalar (.int n), .scalar (.int 0)], ?_,
        fold_by_zero divides n⟩
      simp [dividend, divisor]

/-- A constant whose components are those that the operation gives. -/
def Computed (target : Target) (op : ScalarOp) (args : List Value) (width : Nat) (s : Emission)
    (v : Value) : Prop :=
  v.isConst = true ∧ ∃ us, scalars target v s = .ok us s ∧ us.length = width ∧
    ∀ i u, us[i]? = some u → ∃ c, u.const? = some c ∧ FoldsAt target s op args i (.ok c)

theorem mapTo_ends {inTy outTy : Ty} (each : List.Forall₂ (Operand target k width) args parts)
    (wide : 0 < width) (arity : args.length = op.arity)
    (shape : outTy.shape? = some (op.resultKind k, width)) (s : Emission) :
    Ends (mapTo target op k width inTy outTy args) s
      (fun v t => t = s ∧ Computed target op args width s v)
      (fun f t => t = s ∧ ∃ i < width, FoldsAt target s op args i (.error f)) := by
  have some_args : args ≠ [] := by
    rintro rfl
    have positive := op.arity_pos
    simp at arity
    omega
  have const : args.all Value.isConst = true := by
    refine List.all_eq_true.mpr fun v member => ?_
    obtain ⟨_, _, operand⟩ := exists_right_of_forall₂ each member
    exact operand.isConst
  unfold mapTo
  refine Ends.bind ((checkDivisor_ends each wide arity s).mono ?_ fun _ _ => id)
  rintro _ _ rfl
  rw [if_neg (by simp [const]), components_run each, pure_bind]
  refine Ends.bind ((results_ends each some_args _ op).mono ?_ fun _ _ => id)
  rintro vs _ ⟨rfl, results⟩
  obtain ⟨xs, are, folds⟩ := exists_between results
  have length : xs.length = width := by simpa using folds.length_eq.symm
  have wide : vs.length = width := are.length_eq.symm.trans length
  obtain ⟨v, made, ty, c, payload, yields⟩ := Value.fromScalars_comes (wide ▸ shape) are target
  obtain ⟨us, apart, are', _⟩ := yields target v payload ty
  refine Ends.lift (.of_ok made ⟨rfl, ?_, us, ?_, ?_, ?_⟩)
  · simp [Value.isConst, Value.const?, payload]
  · rw [scalars, ty, apart]
    rfl
  · rw [← are'.length_eq, length]
  · intro i u found
    obtain ⟨inside, rfl⟩ := List.getElem?_eq_some_iff.mp found
    have inside' : i < xs.length := are'.length_eq ▸ inside
    refine ⟨.scalar xs[i], Value.const?_eq_some.mpr (are'.get inside' inside).1, ?_⟩
    simpa using folds.get (by simpa using length ▸ inside') inside'

end Emit

/-- The prelude has every vector. -/
theorem Program.start_vector {p : Program} (start : Program.start = .ok p) (k : ScalarKind)
    {w : Nat} (bounds : 1 ≤ w ∧ w ≤ 4) : ∃ t, p.builtins.vector k w = .ok t ∧ t.shape? = some (k, w) := by
  obtain ⟨K, valid⟩ := Program.start_over start
  unfold Builtins.vector
  split
  case isTrue one =>
    subst one
    exact ⟨_, rfl, Ty.shape?_scalar k⟩
  case isFalse several =>
    have all : Program.start.toOption.all (fun q => Prelude.vectorShapes.all fun shape =>
        (q.builtins.vectors.lookup shape).isSome) = true := by decide +kernel
    rw [start] at all
    have listed : (k, w) ∈ Prelude.vectorShapes := by
      obtain rfl | rfl | rfl : w = 2 ∨ w = 3 ∨ w = 4 := by omega
      all_goals cases k <;> decide
    obtain ⟨t, found⟩ := Option.isSome_iff_exists.mp (List.all_eq_true.mp all _ listed)
    rw [found]
    exact ⟨t, rfl, (valid.builtins.vectors _ (mem_of_lookup found)).2⟩

namespace Emit

variable {t : Ty} {k : ScalarKind} {w : Nat} {args : List Value}

/-- The type that operands share, and its shape. -/
theorem shapedTy_consts (shape : t.shape? = some (k, w)) (nonempty : args ≠ [])
    (each : ∀ v ∈ args, v.ty = t ∨ v.ty = .scalar k) :
    ∃ shaped, shapedTy none args = .ok shaped ∧
      commonShape shaped args = some (k, operandWidth args w) ∧
      (shaped.getD (.scalar k)).shape? = some (k, operandWidth args w) := by
  refine ⟨_, shapedTy_of_shared (t := t) (fun v member vector => ?_) (by simp), ?_⟩
  · refine (each v member).resolve_right fun scalar => ?_
    simp [scalar, Ty.isScalar, Ty.scalarKind?] at vector
  unfold operandWidth
  split
  case isFalse => exact ⟨shape, shape⟩
  case isTrue scalars =>
    refine ⟨?_, Ty.shape?_scalar k⟩
    obtain ⟨v, rest, rfl⟩ := List.exists_cons_of_ne_nil nonempty
    obtain ⟨k', ty⟩ := isScalar_iff.mp (List.all_eq_true.mp scalars v (by simp))
    have same : k' = k := by
      rcases each v (by simp) with own | scalar
      · rw [← own, ty, Ty.shape?_scalar] at shape
        simp_all
      · simpa [ty] using scalar
    simp [commonShape, ty, Ty.shape?_scalar, same]

/-- Constants have scalars, as many as the operation has components if they are no scalars. -/
theorem exists_operands (shape : t.shape? = some (k, w))
    (consts : ∀ v ∈ args, (v.ty = t ∨ v.ty = .scalar k) ∧ ∃ c, v.payload = .const c ∧ v.ty.Holds c)
    (target : Target) :
    ∃ parts, List.Forall₂ (Operand target k (operandWidth args w)) args parts := by
  have each : ∀ v ∈ args, ∃ us, Operand target k (operandWidth args w) v us := by
    intro v member
    obtain ⟨ty, c, const, holds⟩ := consts v member
    cases scalar : v.ty.isScalar with
    | true =>
      obtain ⟨k', own⟩ := isScalar_iff.mp scalar
      have same : k' = k := by
        rcases ty with shared | lone
        · rw [← shared, own, Ty.shape?_scalar] at shape
          simp_all
        · simpa [own] using lone
      subst same
      exact exists_operand const holds (by rw [own, Ty.shape?_scalar]) (by simp [scalar]) target
    | false =>
      have vector : args.all (·.ty.isScalar) = false :=
        List.all_eq_false.mpr ⟨v, member, by simp [scalar]⟩
      rcases ty with shared | lone
      · exact exists_operand const holds (shared ▸ shape)
          (by simp [scalar, operandWidth, vector]) target
      · simp [lone, Ty.isScalar, Ty.scalarKind?] at scalar
  choose! scalarsOf operand using each
  exact ⟨args.map scalarsOf, List.forall₂_map_right_iff.mpr (List.forall₂_same.mpr operand)⟩

theorem vectorTy_ends {p : Program} (start : Program.start = .ok p) {s : Emission}
    (prelude : s.program.builtins = p.builtins) (bounds : 1 ≤ w ∧ w ≤ 4) (k : ScalarKind) :
    Ends (vectorTy k w) s (fun t s' => s' = s ∧ t.shape? = some (k, w)) (fun _ _ => False) := by
  obtain ⟨t, found, shape⟩ := Program.start_vector start k bounds
  rw [← prelude] at found
  exact Ends.bind (Ends.lift (.of_ok found ⟨rfl, shape⟩))

/-- An operation on constants is computed component by component. It fails exactly if that of some
component does; otherwise it gives a constant whose scalars are those that the components give. -/
theorem mapOp_componentwise (op : ScalarOp) {t : Ty} {k : ScalarKind} {w : Nat}
    (shape : t.shape? = some (k, w)) {args : List Value} (arity : args.length = op.arity)
    (consts : ∀ v ∈ args, (v.ty = t ∨ v.ty = .scalar k) ∧ ∃ c, v.payload = .const c ∧ v.ty.Holds c)
    {p : Program} (start : Program.start = .ok p) {s : Emission}
    (prelude : s.program.builtins = p.builtins) (target : Target) :
    ((∃ f s', mapOp target op args s = .error f s') ↔
      ∃ i < operandWidth args w, ∃ f, FoldsAt target s op args i (.error f)) ∧
    ∀ v s', mapOp target op args s = .ok v s' →
      s' = s ∧ Computed target op args (operandWidth args w) s v := by
  have some_args : args ≠ [] := by
    rintro rfl
    exact absurd arity op.arity_pos.ne
  obtain ⟨shaped, found, common, inside⟩ := shapedTy_consts shape some_args fun v member =>
    (consts v member).1
  obtain ⟨parts, each⟩ := exists_operands shape consts target
  have ends : Ends (mapOp target op args) s
      (fun v s' => s' = s ∧ Computed target op args (operandWidth args w) s v)
      (fun f s' => s' = s ∧ ∃ i < operandWidth args w, FoldsAt target s op args i (.error f)) := by
    unfold mapOp
    refine Ends.bind (Ends.lift (.of_ok found ?_))
    rw [common]
    dsimp only
    have bounds := Ty.shape?_bounds inside
    split
    case isTrue same =>
      exact Ends.bind (Ends.pure (mapTo_ends each bounds.1 arity (by rw [same, inside]) s))
    case isFalse =>
      refine Ends.bind ((vectorTy_ends start prelude bounds _).mono ?_ fun _ _ => False.elim)
      rintro out _ ⟨rfl, shape⟩
      exact mapTo_ends each bounds.1 arity shape _
  unfold Ends at ends
  cases run : mapOp target op args s with
  | error f s' =>
    rw [run] at ends
    obtain ⟨_, i, small, fails⟩ := ends
    exact ⟨⟨fun _ => ⟨i, small, f, fails⟩, fun _ => ⟨f, s', rfl⟩⟩, by simp⟩
  | ok v s' =>
    rw [run] at ends
    refine ⟨⟨by simp, ?_⟩, ?_⟩
    · rintro ⟨i, small, f, cs, operands, fails⟩
      obtain ⟨_, _, us, _, count, folds⟩ := ends
      obtain ⟨_, _, ds, operands', computed⟩ := folds i _ (List.getElem?_eq_getElem (count ▸ small))
      cases operands.symm.trans operands'
      cases fails.symm.trans computed
    · rintro _ _ ⟨⟩
      exact ends

/-- Which of three whole numbers, kept in nested fields beside an empty one, are below two. -/
theorem mapOp_componentwise_below : ∃ (t : Ty) (p : Program) (v : Value) (us : List Value),
    t.shape? = some (.int, 3) ∧ Program.start = .ok p ∧
    mapOp .js .lt [.const (.aggregate [.aggregate [], .scalar (.int 1),
      .aggregate [.scalar (.int 2), .scalar (.int 3)]]) t, .int 2] { program := p } =
        .ok v { program := p } ∧
    scalars .js v { program := p } = .ok us { program := p } ∧
    us.map Value.const? = [some (.scalar (.bool true)), some (.scalar (.bool false)),
      some (.scalar (.bool false))] := by
  let c : Constant := .aggregate [.aggregate [], .scalar (.int 1),
    .aggregate [.scalar (.int 2), .scalar (.int 3)]]
  obtain ⟨empty, pair, s, _, _, _, nothing, two, fields, shape, operands⟩ :
      ∃ empty pair s : Struct,
        Struct.declareGroup [⟨"e", []⟩] false ⟨1⟩ = .ok [empty] ⟨3⟩ ∧
        Struct.declareGroup [⟨"p", [⟨"x", .i32⟩, ⟨"y", .i32⟩]⟩] false ⟨3⟩ = .ok [pair] ⟨5⟩ ∧
        Struct.declareGroup [⟨"t", [⟨"e", .struct empty⟩, ⟨"n", .i32⟩, ⟨"p", .struct pair⟩]⟩] false
          ⟨5⟩ = .ok [s] ⟨7⟩ ∧
        empty.fields = [] ∧ pair.fields = [⟨"x", .i32⟩, ⟨"y", .i32⟩] ∧
        s.fields = [⟨"e", .struct empty⟩, ⟨"n", .i32⟩, ⟨"p", .struct pair⟩] ∧
        (Ty.struct s).shape? = some (.int, 3) ∧
        ∀ (i : Nat) (x : Int32) (now : Emission), [(1 : Int32), 2, 3][i]? = some x →
          [.const c (.struct s), .int 2].mapM (component? .js now i) =
            some [.scalar (.int x), .scalar (.int 2)] := by
    refine ⟨_, _, _, rfl, rfl, rfl, rfl, rfl, rfl, rfl, ?_⟩
    rintro (_ | _ | _ | i) x now found
    all_goals cases found
    all_goals rfl
  have int (n : Int32) : Ty.i32.Holds (.scalar (.int n)) := ⟨.int n, rfl, rfl⟩
  have holds : (Ty.struct s).Holds c := by
    refine (Struct.holds_iff s c).mpr ⟨_, rfl, ?_⟩
    rw [fields]
    refine .cons ?_ (.cons (int 1) (.cons ?_ .nil))
    · exact (Struct.holds_iff empty _).mpr ⟨_, rfl, by rw [nothing]; exact .nil⟩
    · refine (Struct.holds_iff pair _).mpr ⟨_, rfl, ?_⟩
      rw [two]
      exact .cons (int 2) (.cons (int 3) .nil)
  obtain ⟨p, start⟩ := Program.exists_start
  have consts : ∀ v ∈ [.const c (.struct s), Value.int 2],
      (v.ty = .struct s ∨ v.ty = .scalar .int) ∧ ∃ d, v.payload = .const d ∧ v.ty.Holds d := by
    simp only [List.mem_cons, List.not_mem_nil, or_false, forall_eq_or_imp, forall_eq]
    exact ⟨⟨.inl rfl, c, rfl, holds⟩, .inr rfl, _, rfl, int 2⟩
  obtain ⟨fails, gives⟩ := mapOp_componentwise .lt shape rfl consts start
    (s := { program := p }) rfl .js
  have folds (i : Nat) (x : Int32) (found : [(1 : Int32), 2, 3][i]? = some x)
      (r : Except Failure Constant)
      (h : FoldsAt .js { program := p } .lt [.const c (.struct s), .int 2] i r) :
      r = .ok (.scalar (.bool (x < 2))) := by
    obtain ⟨cs, components, rfl⟩ := h
    cases (operands i x _ found).symm.trans components
    rfl
  cases run : mapOp .js .lt [.const c (.struct s), .int 2] { program := p } with
  | error f s' =>
    obtain ⟨i, small, f, fold⟩ := fails.mp ⟨f, s', run⟩
    have inside : i < [(1 : Int32), 2, 3].length := small
    cases folds i _ (List.getElem?_eq_getElem inside) _ fold
  | ok v s' =>
    obtain ⟨rfl, _, us, apart, count, computed⟩ := gives v s' run
    refine ⟨_, p, v, us, shape, start, run, apart, ?_⟩
    obtain ⟨u₀, u₁, u₂, rfl⟩ := List.length_eq_three.mp count
    have each (i : Nat) (x : Int32) (u : Value) (found : [(1 : Int32), 2, 3][i]? = some x)
        (at_i : [u₀, u₁, u₂][i]? = some u) : u.const? = some (.scalar (.bool (x < 2))) := by
      obtain ⟨d, const, fold⟩ := computed i u at_i
      cases folds i x found _ fold
      exact const
    simp only [List.map_cons, List.map_nil, each 0 1 u₀ rfl rfl, each 1 2 u₁ rfl rfl,
      each 2 3 u₂ rfl rfl]
    rfl

end Emit

end Ember
