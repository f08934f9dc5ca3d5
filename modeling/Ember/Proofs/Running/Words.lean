import Ember.Proofs.Running

/-!
# Operations on whole numbers and truth values

JavaScript has one kind of numbers, and code for whole numbers cuts its results down to 32 bits
where they may need it. On numbers of 32 bits it gives what the operation gives on constants.
-/

set_option autoImplicit false

namespace Ember

/-- Code that may stand anywhere and whose value is a whole number or a truth value. -/
structure Code.Computes (vars : Cells) (c : Code) (x : Scalar) : Prop where
  atom : c.isAtom = true
  value : ∃ d, Datum.ofScalar? x = some d ∧ c.value? vars = some d

/-- A value tells the scalar that it was written from. -/
theorem Datum.ofScalar?_inj {x y : Scalar} {d : Datum} (hx : ofScalar? x = some d)
    (hy : ofScalar? y = some d) : x = y := by
  cases x with
  | float _ => cases hx
  | int v =>
    cases hx
    cases y with
    | float _ => cases hy
    | int w =>
      have equal : w.toInt = v.toInt := by simpa [ofScalar?, ofWord] using hy
      exact congrArg _ (Int32.toInt_inj.mp equal).symm
    | bool _ => cases hy
  | bool b =>
    cases hx
    cases y with
    | float _ => cases hy
    | int _ => cases hy
    | bool c =>
      cases hy
      rfl

namespace Code.Computes

variable {vars more : Cells} {a b c : Code} {x y z : Scalar} {v w : Int32} {p q : Bool}

theorem kept (h : c.Computes vars x) (kept : vars.Kept more) : c.Computes more x := by
  obtain ⟨d, written, found⟩ := h.value
  exact ⟨h.atom, d, written, Code.value?_kept kept found⟩

theorem number (h : c.Computes vars (.int v)) : c.value? vars = some (.number v.toInt) := by
  obtain ⟨_, ⟨⟩, found⟩ := h.value
  exact found

theorem truth (h : c.Computes vars (.bool p)) : c.value? vars = some (.truth p) := by
  obtain ⟨_, ⟨⟩, found⟩ := h.value
  exact found

theorem lit (x : Scalar) (whole : x.kind ≠ .float) : (Code.lit x).Computes vars x := by
  cases x with
  | float _ => exact absurd rfl whole
  | int v => exact ⟨rfl, _, rfl, by simp only [value?, Datum.ofScalar?]⟩
  | bool b => exact ⟨rfl, _, rfl, by simp only [value?, Datum.ofScalar?]⟩

theorem lit_eq (h : (Code.lit y).Computes vars x) : y = x := by
  obtain ⟨d, written, found⟩ := h.value
  simp only [value?] at found
  exact Datum.ofScalar?_inj found written

theorem not_float (h : c.Computes vars x) : x.kind ≠ .float := by
  obtain ⟨d, written, _⟩ := h.value
  cases x with
  | float _ => cases written
  | int _ => simp [Scalar.kind]
  | bool _ => simp [Scalar.kind]

theorem name {x : String} {s : Scalar} {d : Datum} (written : Datum.ofScalar? s = some d)
    (found : vars.value? x = some d) : (Code.name x).Computes vars s :=
  ⟨rfl, d, written, by simpa only [value?] using found⟩

/-- An operator between two operands that both count. -/
theorem value?_op {o : CodeOp} {d e : Datum} (ha : a.isAtom = true) (hb : b.isAtom = true)
    (left : a.value? vars = some d) (right : b.value? vars = some e)
    (and_ : o = .and → d ≠ .truth false) (or_ : o = .or → d ≠ .truth true) :
    (Code.op o a b).value? vars = Datum.binary o d e := by
  have open_and : ¬ (o = .and ∧ d = .truth false) := fun h => and_ h.1 h.2
  have open_or : ¬ (o = .or ∧ d = .truth true) := fun h => or_ h.1 h.2
  simp [Code.op, value?, ha, hb, left, right, open_and, open_or]

theorem value?_numbers (o : CodeOp) (ha : a.Computes vars (.int v))
    (hb : b.Computes vars (.int w)) :
    (Code.op o a b).value? vars = Datum.ofNumbers o v.toInt w.toInt :=
  value?_op ha.atom hb.atom ha.number hb.number (fun _ h => by cases h) (fun _ h => by cases h)

theorem numbers {o : CodeOp} {f : Datum} (ha : a.Computes vars (.int v))
    (hb : b.Computes vars (.int w)) (joined : Datum.ofNumbers o v.toInt w.toInt = some f)
    (written : Datum.ofScalar? z = some f) : (Code.op o a b).Computes vars z :=
  ⟨rfl, f, written, (value?_numbers o ha hb).trans joined⟩

theorem truths {o : CodeOp} {r : Bool} (ha : a.Computes vars (.bool p))
    (hb : b.Computes vars (.bool q)) (joined : Datum.ofTruths o p q = some (.truth r)) :
    (Code.op o a b).Computes vars (.bool r) := by
  by_cases shortAnd : o = .and ∧ p = false
  · obtain ⟨rfl, rfl⟩ := shortAnd
    refine ⟨rfl, _, rfl, ?_⟩
    cases joined
    simp [Code.op, value?, ha.atom, hb.atom, ha.truth]
  by_cases shortOr : o = .or ∧ p = true
  · obtain ⟨rfl, rfl⟩ := shortOr
    refine ⟨rfl, _, rfl, ?_⟩
    cases joined
    simp [Code.op, value?, ha.atom, hb.atom, ha.truth]
  refine ⟨rfl, _, rfl, (value?_op ha.atom hb.atom ha.truth hb.truth ?_ ?_).trans joined⟩
  · rintro rfl ⟨⟩
    exact shortAnd ⟨rfl, rfl⟩
  · rintro rfl ⟨⟩
    exact shortOr ⟨rfl, rfl⟩

/-- What `| 0` leaves of a number. -/
theorem cut {n : ℚ} (atom : c.isAtom = true) (found : c.value? vars = some (.number n))
    (word : Datum.word n = w) : (ScalarOp.wrapped c).Computes vars (.int w) := by
  have zero : (Code.lit (.int 0)).Computes vars (.int 0) := lit _ (by simp [Scalar.kind])
  refine ⟨rfl, _, rfl, (value?_op atom rfl found zero.number (fun h => by cases h)
    fun h => by cases h).trans ?_⟩
  simp only [Datum.binary, Datum.ofNumbers, word, Datum.word_toInt, Int32.or_zero, Datum.ofWord]

theorem call {fn : String} {args : List Code} {ds : List Datum} {f : Datum}
    (found : values? vars args = some ds) (answered : Datum.call fn ds = some f)
    (written : Datum.ofScalar? z = some f) : (Code.call fn args).Computes vars z := by
  refine ⟨rfl, f, written, ?_⟩
  simp [value?, found, answered]

theorem call_numbers {fn : String} {f : Datum} (ha : a.Computes vars (.int v))
    (hb : b.Computes vars (.int w))
    (answered : Datum.call fn [.number v.toInt, .number w.toInt] = some f)
    (written : Datum.ofScalar? z = some f) : (Code.call fn [a, b]).Computes vars z :=
  call (by simp [values?, ha.number, hb.number]) answered written

end Code.Computes

/-! ## Words -/

namespace Datum

theorem word_add (v w : Int32) : word ((v.toInt : ℚ) + w.toInt) = v + w := by
  rw [← Int.cast_add, word_intCast, Int32.ofInt_add, Int32.ofInt_toInt, Int32.ofInt_toInt]

theorem word_sub (v w : Int32) : word ((v.toInt : ℚ) - w.toInt) = v - w := by
  rw [← Int.cast_sub, word_intCast, Int32.ofInt_sub, Int32.ofInt_toInt, Int32.ofInt_toInt]

theorem word_neg (v : Int32) : word (-(v.toInt : ℚ)) = -v := by
  rw [← Int.cast_neg, word_intCast, Int32.ofInt_neg, Int32.ofInt_toInt]

theorem word_abs (v : Int32) : word |(v.toInt : ℚ)| = if v < 0 then -v else v := by
  rw [← Int.cast_abs, word_intCast]
  split_ifs with negative
  · have below : v.toInt < 0 := Int32.lt_iff_toInt_lt.mp negative
    rw [abs_of_neg below, Int32.ofInt_neg, Int32.ofInt_toInt]
  · have above : 0 ≤ v.toInt := not_lt.mp fun below => negative (Int32.lt_iff_toInt_lt.mpr below)
    rw [abs_of_nonneg above, Int32.ofInt_toInt]

theorem toInt_ne_zero {w : Int32} (nonzero : w ≠ 0) : w.toInt ≠ 0 :=
  fun zero => nonzero (Int32.toInt_inj.mp zero)

theorem word_div (v : Int32) {w : Int32} (nonzero : w ≠ 0) :
    word ((v.toInt : ℚ) / w.toInt) = v / w := by
  rw [word, truncate_div _ (toInt_ne_zero nonzero), Int32.ofInt_tdiv (Int32.minValue_le_toInt v)
    (Int32.toInt_le v) (Int32.minValue_le_toInt w) (Int32.toInt_le w), Int32.ofInt_toInt,
    Int32.ofInt_toInt]

/-- A remainder fits into a word, so it is not cut. -/
theorem rem_word (v : Int32) {w : Int32} (nonzero : w ≠ 0) :
    (v.toInt : ℚ) - w.toInt * truncate ((v.toInt : ℚ) / w.toInt) = (v % w).toInt := by
  rw [truncate_div _ (toInt_ne_zero nonzero), Int32.toInt_mod, Int.tmod_def]
  push_cast
  rfl

theorem min_word (v w : Int32) :
    min (v.toInt : ℚ) w.toInt = (if w < v then w else v).toInt := by
  split_ifs with below
  · exact min_eq_right (by exact_mod_cast (Int32.lt_iff_toInt_lt.mp below).le)
  · exact min_eq_left (by exact_mod_cast not_lt.mp fun h => below (Int32.lt_iff_toInt_lt.mpr h))

theorem max_word (v w : Int32) :
    max (v.toInt : ℚ) w.toInt = (if v < w then w else v).toInt := by
  split_ifs with below
  · exact max_eq_right (by exact_mod_cast (Int32.lt_iff_toInt_lt.mp below).le)
  · exact max_eq_left (by exact_mod_cast not_lt.mp fun h => below (Int32.lt_iff_toInt_lt.mpr h))

theorem decide_lt_word (v w : Int32) : decide ((v.toInt : ℚ) < w.toInt) = decide (v < w) := by
  simp [Int32.lt_iff_toInt_lt]

theorem decide_le_word (v w : Int32) : decide ((v.toInt : ℚ) ≤ w.toInt) = decide (v ≤ w) := by
  simp [Int32.le_iff_toInt_le]

end Datum

namespace ScalarOp

variable {vars : Cells} {op : ScalarOp}

open Code.Computes

/-- Code for whole numbers computes what constants give. -/
theorem computes_of_ints {codes : List Code} {vs : List Int32} {z : Scalar}
    (operands : List.Forall₂ (fun c v => c.Computes vars (.int v)) codes vs)
    (defined : op.byZero (vs.map .int) = false) (value : op.ofInts? vs = some z) :
    (op.code .js .int codes).Computes vars z := by
  have nonzero {v w : Int32} (divides : op.divides = true) (given : vs = [v, w]) : w ≠ 0 := by
    rintro rfl
    simp [byZero, divides, given] at defined
  have fraction {w : Int32} (h : w ≠ 0) : (w.toInt : ℚ) ≠ 0 := by
    exact_mod_cast Datum.toInt_ne_zero h
  match op, vs, operands, value with
  | .add, [v, w], .cons ha (.cons hb .nil), rfl =>
    exact cut rfl (value?_numbers .add ha hb) (Datum.word_add v w)
  | .sub, [v, w], .cons ha (.cons hb .nil), rfl =>
    exact cut rfl (value?_numbers .sub ha hb) (Datum.word_sub v w)
  | .mul, [v, w], .cons ha (.cons hb .nil), rfl =>
    refine call_numbers ha hb rfl ?_
    rw [Datum.word_toInt, Datum.word_toInt]
    rfl
  | .div, [v, w], .cons ha (.cons hb .nil), rfl =>
    have h := nonzero rfl rfl
    exact cut rfl ((value?_numbers .div ha hb).trans (if_neg (fraction h))) (Datum.word_div v h)
  | .rem, [v, w], .cons ha (.cons hb .nil), rfl =>
    have h := nonzero rfl rfl
    refine numbers ha hb (if_neg (fraction h)) ?_
    rw [Datum.rem_word v h]
    rfl
  | .neg, [v], .cons (a := a) ha .nil, rfl =>
    refine cut (c := .paren (.neg a)) rfl ?_ (Datum.word_neg v)
    simp [Code.value?, ha.atom, ha.number, Datum.neg?]
  | .abs, [v], .cons (a := a) ha .nil, rfl =>
    refine cut (c := .call "Math.abs" [a]) rfl ?_ (Datum.word_abs v)
    simp [Code.value?, Code.values?, ha.number, Datum.call]
  | .min, [v, w], .cons ha (.cons hb .nil), rfl =>
    refine call_numbers ha hb rfl ?_
    rw [Datum.min_word]
    rfl
  | .max, [v, w], .cons ha (.cons hb .nil), rfl =>
    refine call_numbers ha hb rfl ?_
    rw [Datum.max_word]
    rfl
  | .clamp, [x, lo, hi], .cons hx (.cons hlo (.cons hhi .nil)), rfl =>
    have inner : (Code.call "Math.max" [_, _]).Computes vars (.int (if x < lo then lo else x)) :=
      call_numbers hx hlo rfl (by rw [Datum.max_word]; rfl)
    refine call_numbers inner hhi rfl ?_
    rw [Datum.min_word]
    rfl
  | .bitAnd, [v, w], .cons ha (.cons hb .nil), rfl =>
    refine numbers ha hb rfl ?_
    rw [Datum.word_toInt, Datum.word_toInt]
    rfl
  | .bitOr, [v, w], .cons ha (.cons hb .nil), rfl =>
    refine numbers ha hb rfl ?_
    rw [Datum.word_toInt, Datum.word_toInt]
    rfl
  | .lt, [v, w], .cons ha (.cons hb .nil), rfl =>
    exact numbers ha hb rfl (by rw [Datum.decide_lt_word]; rfl)
  | .gt, [v, w], .cons ha (.cons hb .nil), rfl =>
    exact numbers ha hb rfl (by rw [Datum.decide_lt_word]; rfl)
  | .le, [v, w], .cons ha (.cons hb .nil), rfl =>
    exact numbers ha hb rfl (by rw [Datum.decide_le_word]; rfl)
  | .ge, [v, w], .cons ha (.cons hb .nil), rfl =>
    exact numbers ha hb rfl (by rw [Datum.decide_le_word]; rfl)

/-- Code for truth values computes what constants give. -/
theorem computes_of_bools {codes : List Code} {ps : List Bool} {z : Scalar}
    (operands : List.Forall₂ (fun c p => c.Computes vars (.bool p)) codes ps)
    (value : op.ofBools? ps = some z) : (op.code .js .bool codes).Computes vars z := by
  match op, ps, operands, value with
  | .and, [p, q], .cons ha (.cons hb .nil), rfl => exact truths ha hb rfl
  | .or, [p, q], .cons ha (.cons hb .nil), rfl => exact truths ha hb rfl
  | .not, [p], .cons (a := a) ha .nil, rfl =>
    show (Code.paren (.not a)).Computes vars _
    exact ⟨rfl, _, rfl, by simp [Code.value?, ha.atom, ha.truth, Datum.not?]⟩

def Operands (vars : Cells) (k : ScalarKind) (codes : List Code) (xs : List Scalar) : Prop :=
  List.Forall₂ (fun c x => c.Computes vars x ∧ x.kind = k) codes xs

theorem Operands.ints {codes : List Code} {xs : List Scalar} (h : Operands vars .int codes xs) :
    ∃ vs, xs = vs.map .int ∧ List.Forall₂ (fun c v => c.Computes vars (.int v)) codes vs := by
  induction h with
  | nil => exact ⟨[], rfl, .nil⟩
  | @cons c x _ _ first _ ih =>
    obtain ⟨vs, rfl, rest⟩ := ih
    cases x with
    | int v => exact ⟨v :: vs, rfl, .cons first.1 rest⟩
    | float _ => cases first.2
    | bool _ => cases first.2

theorem Operands.bools {codes : List Code} {xs : List Scalar} (h : Operands vars .bool codes xs) :
    ∃ ps, xs = ps.map .bool ∧ List.Forall₂ (fun c p => c.Computes vars (.bool p)) codes ps := by
  induction h with
  | nil => exact ⟨[], rfl, .nil⟩
  | @cons c x _ _ first _ ih =>
    obtain ⟨ps, rfl, rest⟩ := ih
    cases x with
    | bool p => exact ⟨p :: ps, rfl, .cons first.1 rest⟩
    | float _ => cases first.2
    | int _ => cases first.2

theorem kind_of_ints {vs : List Int32} {z : Scalar} (value : op.ofInts? vs = some z) :
    z.kind = op.resultKind .int := by
  revert value
  fun_cases ofInts? op vs <;> rintro ⟨⟩ <;> rfl

theorem kind_of_bools {ps : List Bool} {z : Scalar} (value : op.ofBools? ps = some z) :
    z.kind = op.resultKind .bool := by
  revert value
  fun_cases ofBools? op ps <;> rintro ⟨⟩ <;> rfl

/-- What is written one by one is read one by one. -/
theorem mapM_map_of_some {α β : Type} (f : α → β) (g : β → Option α)
    (read : ∀ a, g (f a) = some a) (as : List α) : (as.map f).mapM g = some as := by
  induction as with
  | nil => rfl
  | cons a as ih => rw [List.map_cons, List.mapM_cons, read, ih]; rfl

/-- Folding has a value only where the operation is defined on the scalars. -/
theorem value_of_fold {xs : List Scalar} {c : Constant}
    (folded : op.fold (xs.map Constant.scalar) = .ok c) :
    op.byZero xs = false ∧ ∃ z, op.value? xs = some z ∧ c = .scalar z := by
  have scalars : (xs.map Constant.scalar).mapM Constant.scalar? = some xs :=
    mapM_map_of_some Constant.scalar Constant.scalar? (fun _ => rfl) xs
  unfold fold at folded
  simp only [scalars] at folded
  split_ifs at folded with zero
  refine ⟨by simpa using zero, ?_⟩
  cases value : op.value? xs with
  | none => simp [value] at folded
  | some z =>
    simp only [value, Except.ok.injEq] at folded
    exact ⟨z, rfl, folded.symm⟩

/-- Code computes what folding gives. -/
theorem computes_of_fold {k : ScalarKind} {codes : List Code} {xs : List Scalar} {c : Constant}
    (operands : Operands vars k codes xs) (folded : op.fold (xs.map Constant.scalar) = .ok c) :
    ∃ z, c = .scalar z ∧ z.kind = op.resultKind k ∧ (op.code .js k codes).Computes vars z := by
  obtain ⟨defined, z, value, rfl⟩ := value_of_fold folded
  refine ⟨z, rfl, ?_⟩
  cases k with
  | float =>
    cases operands with
    | nil => cases value
    | @cons c x _ _ first _ =>
      obtain ⟨⟨_, d, written, _⟩, kind⟩ := first
      cases x <;> cases kind
      cases written
  | int =>
    obtain ⟨vs, rfl, each⟩ := operands.ints
    have found : op.ofInts? vs = some z := by
      cases vs with
      | nil => cases value
      | cons v vs =>
        have read := mapM_map_of_some Scalar.int Scalar.int? (fun _ => rfl) (v :: vs)
        exact (congrArg (·.bind op.ofInts?) read).symm.trans value
    exact ⟨kind_of_ints found, computes_of_ints each defined found⟩
  | bool =>
    obtain ⟨ps, rfl, each⟩ := operands.bools
    have found : op.ofBools? ps = some z := by
      cases ps with
      | nil => cases value
      | cons p ps =>
        have read := mapM_map_of_some Scalar.bool Scalar.bool? (fun _ => rfl) (p :: ps)
        exact (congrArg (·.bind op.ofBools?) read).symm.trans value
    exact ⟨kind_of_bools found, computes_of_bools each found⟩

end ScalarOp
end Ember
