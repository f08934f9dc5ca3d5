import Ember.Derivative
import Ember.Proofs.Exact

/-!
# The derivative of an expression is its derivative

An expression of numbers, names, the four operations, whole powers and five functions has a value in
every field of characteristic zero, once the names stand for elements and the functions for
functions of it. It also has a value in the dual numbers over that field, where the variable stands
for `x + ε` and a function carries its slope along. The infinitesimal part of that value is the
value of the symbolic derivative.
-/

set_option autoImplicit false

universe u

namespace Ember.Expr

open scoped DualNumber
open TrivSqZeroExt

inductive Elementary where
  | sin | cos | exp | sqrt | ln
  deriving DecidableEq

namespace Elementary

def all : List Elementary := [.sin, .cos, .exp, .sqrt, .ln]

def name : Elementary → String
  | .sin => "sin"
  | .cos => "cos"
  | .exp => "exp"
  | .sqrt => "sqrt"
  | .ln => "ln"

def ofName? (s : String) : Option Elementary := all.find? (·.name == s)

theorem ofName?_name (f : Elementary) : ofName? f.name = some f := by
  cases f <;> decide

end Elementary

/-- The whole number that stands as an exponent: a literal, or one literal less another. -/
def exponent : Expr → ℤ
  | ⟨.lit (.int n), _⟩ => n.toInt
  | ⟨.lit (.float v), _⟩ => ⌊Exact.number (0 : ℚ) v.toModel.unpack⌋
  | ⟨.binary .sub a b, _⟩ => exponent a - exponent b
  | _ => 0

structure Reading (A : Type u) where
  number : Float → A
  ident : String → A
  param : String → A
  apply : Elementary → A → A

def value {A : Type u} [CommRing A] [Inv A] (R : Reading A) : Expr → A
  | ⟨.lit (.int n), _⟩ => (n.toInt : A)
  | ⟨.lit (.float v), _⟩ => R.number v
  | ⟨.ident name, _⟩ => R.ident name
  | ⟨.param name, _⟩ => R.param name
  | ⟨.unary .neg a, _⟩ => -value R a
  | ⟨.binary .add a b, _⟩ => value R a + value R b
  | ⟨.binary .sub a b, _⟩ => value R a - value R b
  | ⟨.binary .mul a b, _⟩ => value R a * value R b
  | ⟨.binary .div a b, _⟩ => value R a * (value R b)⁻¹
  | ⟨.binary .pow a b, _⟩ => value R a ^ b.exponent.toNat
  | ⟨.call callee [] [a], _⟩ =>
    match callee.calledName?.bind Elementary.ofName? with
    | some f => R.apply f (value R a)
    | none => 0
  | _ => 0

/-- Elements of a field for the names, and functions of it for the elementary ones. -/
structure Assignment (K : Type u) where
  ident : String → K
  param : String → K
  apply : Elementary → K → K
  /-- What a literal beyond all floats stands for. -/
  infinity : K

namespace Assignment

variable {K : Type u} [Field K] (ρ : Assignment K)

def plain : Reading K where
  number v := Exact.number ρ.infinity v.toModel.unpack
  ident := ρ.ident
  param := ρ.param
  apply := ρ.apply

def slope : Elementary → K → K
  | .sin, a => ρ.apply .cos a
  | .cos, a => -ρ.apply .sin a
  | .exp, a => ρ.apply .exp a
  | .sqrt, a => 1 / (2 • ρ.apply .sqrt a)
  | .ln, a => 1 / a

/-- The same in dual numbers, at `x + ε`. -/
def dual (x : String) : Reading K[ε] where
  number v := inl (Exact.number ρ.infinity v.toModel.unpack)
  ident name := inl (ρ.ident name) + if name = x then ε else 0
  param name := inl (ρ.param name)
  apply f a := inl (ρ.apply f a.fst) + inr (ρ.slope f a.fst * a.snd)

theorem fst_dual_apply (x : String) (f : Elementary) (a : K[ε]) :
    ((ρ.dual x).apply f a).fst = ρ.apply f a.fst := by
  simp [dual]

theorem snd_dual_apply (x : String) (f : Elementary) (a : K[ε]) :
    ((ρ.dual x).apply f a).snd = ρ.slope f a.fst * a.snd := by
  simp [dual]

end Assignment

/-- The expressions that have a derivative, with exponents of the kind `E`. -/
inductive Arithmetic (E : Expr → Prop) : Expr → Prop
  | int (n : Int32) (span : Span) : Arithmetic E ⟨.lit (.int n), span⟩
  | float (v : Float) (span : Span) : Arithmetic E ⟨.lit (.float v), span⟩
  | ident (name : String) (span : Span) : Arithmetic E ⟨.ident name, span⟩
  | param (name : String) (span : Span) : Arithmetic E ⟨.param name, span⟩
  | neg {a : Expr} (span : Span) (ha : Arithmetic E a) : Arithmetic E ⟨.unary .neg a, span⟩
  | add {a b : Expr} (span : Span) (ha : Arithmetic E a) (hb : Arithmetic E b) :
      Arithmetic E ⟨.binary .add a b, span⟩
  | sub {a b : Expr} (span : Span) (ha : Arithmetic E a) (hb : Arithmetic E b) :
      Arithmetic E ⟨.binary .sub a b, span⟩
  | mul {a b : Expr} (span : Span) (ha : Arithmetic E a) (hb : Arithmetic E b) :
      Arithmetic E ⟨.binary .mul a b, span⟩
  | div {a b : Expr} (span : Span) (ha : Arithmetic E a) (hb : Arithmetic E b) :
      Arithmetic E ⟨.binary .div a b, span⟩
  | pow {a b : Expr} (span : Span) (ha : Arithmetic E a) (hb : E b) :
      Arithmetic E ⟨.binary .pow a b, span⟩
  | call {callee a : Expr} {f : Elementary} (span : Span)
      (called : callee.calledName? = some f.name) (ha : Arithmetic E a) :
      Arithmetic E ⟨.call callee [] [a], span⟩

def IsNatural (e : Expr) : Prop := ∃ n span, e = ⟨.lit (.int n), span⟩ ∧ 0 ≤ n.toInt

/-- An exponent that is, in every field, the natural number it is read as. -/
def IsWhole (e : Expr) : Prop :=
  ∀ (K : Type u) [Field K] [CharZero K] (ρ : Assignment K), e.value ρ.plain = (e.exponent.toNat : K)

namespace Arithmetic

variable {E : Expr → Prop} {a b : Expr}

theorem mono {E' : Expr → Prop} (sub : ∀ e, E e → E' e) (ha : Arithmetic E a) :
    Arithmetic E' a := by
  induction ha with
  | int n span => exact .int n span
  | float v span => exact .float v span
  | ident name span => exact .ident name span
  | param name span => exact .param name span
  | neg span _ iha => exact .neg span iha
  | add span _ _ iha ihb => exact .add span iha ihb
  | sub span _ _ iha ihb => exact .sub span iha ihb
  | mul span _ _ iha ihb => exact .mul span iha ihb
  | div span _ _ iha ihb => exact .div span iha ihb
  | pow span _ hb iha => exact .pow span iha (sub _ hb)
  | call span called _ iha => exact .call span called iha

theorem negative (ha : Arithmetic E a) : Arithmetic E a.negative := by
  unfold Expr.negative
  split
  · exact .float _ _
  · exact .neg _ ha

theorem sum (ha : Arithmetic E a) (hb : Arithmetic E b) : Arithmetic E (a.sum b) := by
  unfold Expr.sum
  split_ifs
  · exact hb
  · exact ha
  · exact .add _ ha hb

theorem difference (ha : Arithmetic E a) (hb : Arithmetic E b) : Arithmetic E (a.difference b) := by
  unfold Expr.difference
  split_ifs
  · exact ha
  · exact hb.negative
  · exact .sub _ ha hb

theorem product (ha : Arithmetic E a) (hb : Arithmetic E b) : Arithmetic E (a.product b) := by
  unfold Expr.product
  split_ifs
  · exact .float _ _
  · exact hb
  · exact ha
  · exact .mul _ ha hb

theorem quotient (ha : Arithmetic E a) (hb : Arithmetic E b) : Arithmetic E (a.quotient b) := by
  unfold Expr.quotient
  split_ifs
  · exact ha
  · exact .div _ ha hb

theorem callBuiltin (f : Elementary) (ha : Arithmetic E a) :
    Arithmetic E (Expr.callBuiltin f.name a) := .call _ rfl ha

end Arithmetic

section Values

variable {K : Type u} [Field K] [CharZero K] (ρ : Assignment K)

theorem number_whole (n : Int32) :
    Exact.number ρ.infinity (whole n).toModel.unpack = (n.toInt : K) := by
  have size : (UInt32.ofNat n.toInt.natAbs).toNat = n.toInt.natAbs := by
    have low := n.le_toInt
    have high := n.toInt_lt
    rw [UInt32.toNat_ofNat', Nat.mod_eq_of_lt (by omega)]
  have abs := Exact.number_toFloat ρ.infinity (UInt32.ofNat n.toInt.natAbs)
  rw [size] at abs
  unfold whole
  split_ifs with negative
  · rw [Exact.unpack_neg, Exact.number_neg, abs, ← Int.cast_natCast, ← Int.cast_neg]
    congr 1
    omega
  · rw [abs, ← Int.cast_natCast]
    congr 1
    omega

theorem value_of_number? {e : Expr} {v : Float} (found : e.number? = some v) :
    e.value ρ.plain = ρ.plain.number v := by
  obtain ⟨kind, span⟩ := e
  unfold number? at found
  split at found
  · rename_i w same
    cases found
    cases same
    rfl
  · rename_i n same
    cases found
    cases same
    exact (number_whole ρ n).symm
  · cases found

theorem value_of_isNumber {e : Expr} {v : Float} (is : e.isNumber v = true) :
    e.value ρ.plain = ρ.plain.number v := by
  unfold isNumber at is
  cases found : e.number? with
  | none => rw [found] at is; cases is
  | some w =>
    rw [found] at is
    rw [value_of_number? ρ found]
    exact Exact.number_eq_of_beq ρ.infinity is

omit [CharZero K] in
theorem number_zero : ρ.plain.number 0 = 0 := rfl

theorem number_natural (n : UInt32) {v : Float} (same : v = n.toFloat) :
    ρ.plain.number v = (n.toNat : K) := same ▸ Exact.number_toFloat ρ.infinity n

theorem number_one : ρ.plain.number 1 = 1 := (number_natural ρ 1 rfl).trans Nat.cast_one

theorem number_two : ρ.plain.number 2 = 2 := (number_natural ρ 2 rfl).trans Nat.cast_two

theorem value_negative (a : Expr) : a.negative.value ρ.plain = -a.value ρ.plain := by
  unfold negative
  split
  · rename_i v found
    rw [value_of_number? ρ found]
    change Exact.number ρ.infinity (-v).toModel.unpack = -Exact.number ρ.infinity v.toModel.unpack
    rw [Exact.unpack_neg, Exact.number_neg]
  · rfl

theorem value_sum (a b : Expr) :
    (a.sum b).value ρ.plain = a.value ρ.plain + b.value ρ.plain := by
  unfold sum
  split_ifs with left right
  · rw [value_of_isNumber ρ left, number_zero, zero_add]
  · rw [value_of_isNumber ρ right, number_zero, add_zero]
  · rfl

theorem value_difference (a b : Expr) :
    (a.difference b).value ρ.plain = a.value ρ.plain - b.value ρ.plain := by
  unfold difference
  split_ifs with right left
  · rw [value_of_isNumber ρ right, number_zero, sub_zero]
  · rw [value_of_isNumber ρ left, number_zero, zero_sub, value_negative]
  · rfl

theorem value_product (a b : Expr) :
    (a.product b).value ρ.plain = a.value ρ.plain * b.value ρ.plain := by
  unfold product
  split_ifs with zero left right
  · rcases Bool.or_eq_true_iff.mp zero with zero | zero
    · rw [value_of_isNumber ρ zero, number_zero, zero_mul]
      rfl
    · rw [value_of_isNumber ρ zero, number_zero, mul_zero]
      rfl
  · rw [value_of_isNumber ρ left, number_one, one_mul]
  · rw [value_of_isNumber ρ right, number_one, mul_one]
  · rfl

theorem value_quotient (a b : Expr) :
    (a.quotient b).value ρ.plain = a.value ρ.plain / b.value ρ.plain := by
  unfold quotient
  split_ifs with short
  · rcases Bool.or_eq_true_iff.mp short with zero | one
    · rw [value_of_isNumber ρ zero, number_zero, zero_div]
    · rw [value_of_isNumber ρ one, number_one, div_one]
  · exact (div_eq_mul_inv _ _).symm

omit [CharZero K] in
theorem value_callBuiltin (name : String) (f : Elementary) (known : f.name = name) (a : Expr) :
    (callBuiltin name a).value ρ.plain = ρ.apply f (a.value ρ.plain) := by
  have found : (calledName? ⟨.builtin name, a.span⟩).bind Elementary.ofName? = some f :=
    known ▸ f.ofName?_name
  simp only [callBuiltin, value, found]
  rfl

omit [CharZero K] in
/-- Without its infinitesimal part the value in dual numbers is the plain one. -/
theorem fst_value_dual {E : Expr → Prop} (x : String) {e : Expr} (he : Arithmetic E e) :
    (e.value (ρ.dual x)).fst = e.value ρ.plain := by
  induction he with
  | int n span => simp [value]
  | float v span => rfl
  | ident name span =>
    simp only [value, Assignment.dual, Assignment.plain]
    split_ifs <;> simp
  | param name span => rfl
  | neg span _ ih => simp [value, ih]
  | add span _ _ iha ihb => simp [value, iha, ihb]
  | sub span _ _ iha ihb => simp [value, iha, ihb]
  | mul span _ _ iha ihb => simp [value, iha, ihb]
  | div span _ _ iha ihb => simp [value, iha, ihb]
  | pow span _ _ iha => simp [value, iha]
  | @call callee a f span called _ iha =>
    have found : callee.calledName?.bind Elementary.ofName? = some f := by
      rw [called]
      exact f.ofName?_name
    simp only [value, found, Assignment.fst_dual_apply, iha]
    rfl

end Values

theorem IsNatural.isWhole {e : Expr} (natural : IsNatural e) : IsWhole.{u} e := by
  obtain ⟨n, span, rfl, pos⟩ := natural
  intro K _ _ ρ
  change (n.toInt : K) = (n.toInt.toNat : K)
  rw [← Int.cast_natCast, Int.toNat_of_nonneg pos]

theorem exponent_one (span : Span) : (number 1 span).exponent = 1 := by
  have one : Exact.number (0 : ℚ) (1 : Float).toModel.unpack = 1 :=
    number_one ⟨fun _ => 0, fun _ => 0, fun _ _ => 0, 0⟩
  change ⌊Exact.number (0 : ℚ) (1 : Float).toModel.unpack⌋ = 1
  rw [one, Int.floor_one]

/-- One less than a literal that is not zero. -/
theorem isWhole_pred {n : Int32} (pos : 0 < n.toInt) (span at' : Span) :
    IsWhole.{u} (binary .sub ⟨.lit (.int n), span⟩ (number 1 at')) := by
  intro K _ _ ρ
  have shape : (binary .sub ⟨.lit (.int n), span⟩ (number 1 at')).exponent = n.toInt - 1 :=
    congrArg (n.toInt - ·) (exponent_one at')
  rw [shape]
  change (n.toInt : K) - ρ.plain.number 1 = _
  rw [number_one, ← Int.cast_natCast, Int.toNat_of_nonneg (by omega), Int.cast_sub, Int.cast_one]

/-- What it is to be the derivative of an expression: an expression of the same kind, whose value is
the infinitesimal part of the expression's. -/
def IsDerivative (x : String) (e r : Expr) : Prop :=
  Arithmetic IsWhole.{u} r ∧ ∀ (K : Type u) [Field K] [CharZero K] (ρ : Assignment K),
    r.value ρ.plain = (e.value (ρ.dual x)).snd

/-- The factor `n * a ^ (n - 1)`; for the exponent zero it is dropped as a whole. -/
theorem powerFactor {a : Expr} (ha : Arithmetic IsWhole.{u} a) {n : Int32} (pos : 0 ≤ n.toInt)
    (span at' : Span) :
    let factor := product ⟨.lit (.int n), at'⟩
      (binary .pow a (difference ⟨.lit (.int n), at'⟩ (number 1 span)))
    Arithmetic IsWhole.{u} factor ∧ ∀ (K : Type u) [Field K] [CharZero K] (ρ : Assignment K),
      factor.value ρ.plain = n.toInt.toNat * a.value ρ.plain ^ n.toInt.toNat.pred := by
  intro factor
  rcases pos.eq_or_lt with zero | pos
  · obtain rfl : n = 0 := Int32.toInt_inj.mp zero.symm
    have dropped : isNumber ⟨.lit (.int 0), at'⟩ 0 = true := rfl
    simp only [factor, product, dropped, Bool.true_or, if_true]
    refine ⟨.float _ _, fun K _ _ ρ => ?_⟩
    change ρ.plain.number 0 = _
    rw [number_zero]
    simp
  · have notZero : isNumber ⟨.lit (.int n), at'⟩ 0 = false := Bool.eq_false_iff.mpr fun is => by
      have zero : ((n.toInt : ℤ) : ℚ) = 0 :=
        value_of_isNumber (⟨fun _ => 0, fun _ => 0, fun _ _ => 0, 0⟩ : Assignment ℚ) is
      have := Int.cast_eq_zero.mp zero
      omega
    have notZero' : (number 1 span).isNumber 0 = false := rfl
    have less : difference ⟨.lit (.int n), at'⟩ (number 1 span) =
        binary .sub ⟨.lit (.int n), at'⟩ (number 1 span) := by
      simp [difference, notZero, notZero']
    have shape : (binary .sub ⟨.lit (.int n), at'⟩ (number 1 span)).exponent = n.toInt - 1 :=
      congrArg (n.toInt - ·) (exponent_one span)
    refine ⟨.product (.int _ _) (.pow _ ha (less ▸ isWhole_pred pos at' span)), fun K _ _ ρ => ?_⟩
    have power : (binary .pow a (difference ⟨.lit (.int n), at'⟩ (number 1 span))).value ρ.plain =
        a.value ρ.plain ^ n.toInt.toNat.pred := by
      rw [less]
      change a.value ρ.plain ^ (Expr.exponent _).toNat = _
      rw [shape, Nat.pred_eq_sub_one]
      congr 1
      omega
    rw [value_product, power]
    change (n.toInt : K) * _ = _
    rw [← Int.cast_natCast, Int.toNat_of_nonneg pos.le]

theorem derivative_pow {x : String} {a b da : Expr} {span : Span}
    (ha : Arithmetic IsNatural a) (natural : IsNatural b) (run : derivative x a = .ok da)
    (is : IsDerivative.{u} x a da) : ∃ r, derivative x ⟨.binary .pow a b, span⟩ = .ok r ∧
      IsDerivative.{u} x ⟨.binary .pow a b, span⟩ r := by
  obtain ⟨n, at', rfl, pos⟩ := natural
  have ha' := ha.mono fun _ natural => IsNatural.isWhole.{u} natural
  obtain ⟨whole, factor⟩ := powerFactor ha' pos span at'
  refine ⟨_, by rw [derivative, if_neg (by simp [mentions]), run]; rfl, whole.product is.1,
    fun K _ _ ρ => ?_⟩
  rw [value_product, factor, is.2, ← fst_value_dual ρ x ha]
  simp only [value, exponent, snd_pow, nsmul_eq_mul, smul_eq_mul]
  ring

theorem derivative_call {x : String} {callee a da : Expr} {f : Elementary} {span : Span}
    (ha : Arithmetic IsNatural a) (called : callee.calledName? = some f.name)
    (run : derivative x a = .ok da) (is : IsDerivative.{u} x a da) :
    ∃ r, derivative x ⟨.call callee [] [a], span⟩ = .ok r ∧
      IsDerivative.{u} x ⟨.call callee [] [a], span⟩ r := by
  have found : callee.calledName?.bind Elementary.ofName? = some f := by
    rw [called]
    exact f.ofName?_name
  have step : derivative x ⟨.call callee [] [a], span⟩ = chain f.name a da span := by
    rw [derivative, called, run]
    rfl
  have slope (K : Type u) [Field K] [CharZero K] (ρ : Assignment K) :
      (value (ρ.dual x) ⟨.call callee [] [a], span⟩).snd =
        ρ.slope f (a.value ρ.plain) * da.value ρ.plain := by
    simp only [value, found, Assignment.snd_dual_apply, fst_value_dual ρ x ha, is.2 K ρ]
  have ha' := ha.mono fun _ natural => IsNatural.isWhole.{u} natural
  rw [step]
  cases f with
  | sin =>
    refine ⟨_, rfl, (ha'.callBuiltin .cos).product is.1, fun K _ _ ρ => ?_⟩
    rw [value_product, value_callBuiltin ρ "cos" .cos rfl, slope]
    rfl
  | cos =>
    refine ⟨_, rfl, (ha'.callBuiltin .sin).negative.product is.1, fun K _ _ ρ => ?_⟩
    rw [value_product, value_negative, value_callBuiltin ρ "sin" .sin rfl, slope]
    rfl
  | exp =>
    refine ⟨_, rfl, (ha'.callBuiltin .exp).product is.1, fun K _ _ ρ => ?_⟩
    rw [value_product, value_callBuiltin ρ "exp" .exp rfl, slope]
    rfl
  | sqrt =>
    refine ⟨_, rfl, is.1.quotient (.product (.float _ _) (ha'.callBuiltin .sqrt)),
      fun K _ _ ρ => ?_⟩
    rw [value_quotient, value_product, value_callBuiltin ρ "sqrt" .sqrt rfl, slope]
    change _ / (ρ.plain.number 2 * _) = _
    rw [number_two, two_mul, ← two_nsmul, div_eq_mul_one_div, mul_comm]
    rfl
  | ln =>
    refine ⟨_, rfl, is.1.quotient ha', fun K _ _ ρ => ?_⟩
    rw [value_quotient, slope, div_eq_mul_one_div, mul_comm]
    rfl

/-- Every expression of numbers, names, the four operations, powers with a natural number and the
five functions has a derivative. In every field of characteristic zero, whatever the names and the
functions stand for, the value of the derivative is the infinitesimal part of the value of the
expression at `x + ε`. (Where a divisor is zero both take the quotient to be zero, so that nothing
has to be asked of divisors.) -/
theorem derivative_isDerivative (x : String) {e : Expr} (he : Arithmetic IsNatural e) :
    ∃ r, derivative x e = .ok r ∧ IsDerivative.{u} x e r := by
  induction he with
  | int n span =>
    refine ⟨_, rfl, .float _ _, fun K _ _ ρ => ?_⟩
    simp [value, number, number_zero]
  | float v span =>
    refine ⟨_, rfl, .float _ _, fun K _ _ ρ => ?_⟩
    simp [value, number, number_zero, Assignment.dual]
  | param name span =>
    refine ⟨_, rfl, .float _ _, fun K _ _ ρ => ?_⟩
    simp [value, number, number_zero, Assignment.dual]
  | ident name span =>
    refine ⟨_, rfl, .float _ _, fun K _ _ ρ => ?_⟩
    simp only [value, number, Assignment.dual]
    split_ifs
    · simp [number_one]
    · simp [number_zero]
  | neg span _ ih =>
    obtain ⟨da, run, is, same⟩ := ih
    refine ⟨_, by rw [derivative, run]; rfl, is.negative, fun K _ _ ρ => ?_⟩
    rw [value_negative, same]
    simp [value]
  | add span _ _ iha ihb =>
    obtain ⟨da, runA, isA, sameA⟩ := iha
    obtain ⟨db, runB, isB, sameB⟩ := ihb
    refine ⟨_, by rw [derivative, runA, runB]; rfl, isA.sum isB, fun K _ _ ρ => ?_⟩
    rw [value_sum, sameA, sameB]
    simp [value]
  | sub span _ _ iha ihb =>
    obtain ⟨da, runA, isA, sameA⟩ := iha
    obtain ⟨db, runB, isB, sameB⟩ := ihb
    refine ⟨_, by rw [derivative, runA, runB]; rfl, isA.difference isB, fun K _ _ ρ => ?_⟩
    rw [value_difference, sameA, sameB]
    simp [value]
  | @mul a b span ha hb iha ihb =>
    obtain ⟨da, runA, isA, sameA⟩ := iha
    obtain ⟨db, runB, isB, sameB⟩ := ihb
    have ha' := ha.mono fun _ natural => IsNatural.isWhole.{u} natural
    have hb' := hb.mono fun _ natural => IsNatural.isWhole.{u} natural
    refine ⟨_, by rw [derivative, runA, runB]; rfl, (isA.product hb').sum (ha'.product isB),
      fun K _ _ ρ => ?_⟩
    rw [value_sum, value_product, value_product, sameA, sameB, ← fst_value_dual ρ x ha,
      ← fst_value_dual ρ x hb]
    simp [value]
    ring
  | @div a b span ha hb iha ihb =>
    obtain ⟨da, runA, isA, sameA⟩ := iha
    obtain ⟨db, runB, isB, sameB⟩ := ihb
    have ha' := ha.mono fun _ natural => IsNatural.isWhole.{u} natural
    have hb' := hb.mono fun _ natural => IsNatural.isWhole.{u} natural
    refine ⟨_, by rw [derivative, runA, runB]; rfl,
      ((isA.product hb').difference (ha'.product isB)).quotient (hb'.product hb'),
      fun K _ _ ρ => ?_⟩
    rw [value_quotient, value_difference, value_product, value_product, value_product, sameA, sameB,
      ← fst_value_dual ρ x ha, ← fst_value_dual ρ x hb]
    simp [value]
    by_cases zero : (b.value (ρ.dual x)).fst = 0
    · simp [zero]
    · field_simp
      ring
  | pow span ha natural ih =>
    obtain ⟨da, run, is⟩ := ih
    exact derivative_pow ha natural run is
  | call span called ha ih =>
    obtain ⟨da, run, is⟩ := ih
    exact derivative_call ha called run is

/-- `sin(x * $k) / x ^ 2`, with every span empty. -/
theorem derivative_isDerivative_wave :
    ∃ r, derivative "x" ⟨.binary .div
        ⟨.call ⟨.ident "sin", default⟩ []
          [⟨.binary .mul ⟨.ident "x", default⟩ ⟨.param "k", default⟩, default⟩], default⟩
        ⟨.binary .pow ⟨.ident "x", default⟩ ⟨.lit (.int 2), default⟩, default⟩, default⟩ = .ok r ∧
      IsDerivative.{0} "x" ⟨.binary .div
        ⟨.call ⟨.ident "sin", default⟩ []
          [⟨.binary .mul ⟨.ident "x", default⟩ ⟨.param "k", default⟩, default⟩], default⟩
        ⟨.binary .pow ⟨.ident "x", default⟩ ⟨.lit (.int 2), default⟩, default⟩, default⟩ r :=
  derivative_isDerivative "x" (.div _
    (.call (f := .sin) _ rfl (.mul _ (.ident "x" _) (.param "k" _)))
    (.pow _ (.ident "x" _) ⟨2, _, rfl, by decide⟩))

end Ember.Expr
