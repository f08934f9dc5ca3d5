import Mathlib

/-!
# Floats as exact numbers

A float in double precision is a sign, digits and a power of two, so it is a number of any field.
The sign that stands for no number is read as zero, and infinity as whatever the reader has for it.
Comparing, negating and converting from 32 bits agree with the numbers.
-/

set_option autoImplicit false

namespace Ember.Exact

open Float.Model Float.Model.UnpackedFloat

section Packing

/-- What a float in double precision may be: the digits fill their place, or the exponent is the
least. -/
def Fits : UnpackedFloat → Prop
  | .finite _ m e _ => m < 2 ^ 53 ∧ -1074 ≤ e ∧ e ≤ 971 ∧ (2 ^ 52 ≤ m ∨ e = -1074)
  | _ => True

theorem leading_one (m : BitVec 52) : (1#1 ++ m).toNat = 2 ^ 52 + m.toNat := by
  have parts := Nat.shiftLeft_add_eq_or_of_lt m.isLt 1
  rw [BitVec.toNat_append, show (1#1).toNat = 1 from rfl, ← parts, Nat.shiftLeft_eq, one_mul]

theorem sign_packed (s : Sign) (e : BitVec 11) (m : BitVec 52) :
    Sign.ofBitVec (unpackSign (packComponents .binary64 s e m)) = s := by
  unfold unpackSign packComponents BitVec.extractLsb
  rw [BitVec.extractLsb'_append_eq_of_le (by decide),
    BitVec.extractLsb'_append_eq_of_le (by decide)]
  cases s <;> rfl

theorem fits_unpack (b : BitVec 64) : Fits (UnpackedFloat.unpack .binary64 b) := by
  unfold UnpackedFloat.unpack
  extract_lets m e exponent signBit sign
  have digits : m.toNat < 2 ^ 52 := m.isLt
  have place : e.toNat < 2 ^ 11 := e.isLt
  have bias : exponent = (e.toNat : Int) - 1075 := rfl
  split_ifs with full _ zero _
  · trivial
  · trivial
  · trivial
  · have least : e.toNat = 0 := by rw [zero]; rfl
    exact ⟨by omega, by omega, by omega, .inr (by omega)⟩
  · have notFull : e.toNat ≠ 2047 := fun h => full (BitVec.eq_of_toNat_eq (by rw [h]; rfl))
    have notZero : e.toNat ≠ 0 := fun h => zero (BitVec.eq_of_toNat_eq (by rw [h]; rfl))
    rw [Fits, leading_one m]
    exact ⟨by omega, by omega, by omega, .inl (by omega)⟩

/-- Digits that fill their place lose the first of them, and get it back. -/
theorem unpack_normal {m : Nat} {e : Int} (s : Sign) (pos : 0 < m) (digits : m < 2 ^ 53)
    (full : 2 ^ 52 ≤ m) (low : -1074 ≤ e) (high : e ≤ 971) :
    UnpackedFloat.unpack .binary64 (packComponents .binary64 s (BitVec.ofNat 11 (e + 1075).toNat)
      (BitVec.ofNat 52 m)) = .finite s m e pos := by
  have exponent : (BitVec.ofNat 11 (e + 1075).toNat).toNat = (e + 1075).toNat := by
    rw [BitVec.toNat_ofNat, Nat.mod_eq_of_lt (by omega)]
  have notFull : BitVec.ofNat 11 (e + 1075).toNat ≠ -1#11 := fun h => by
    rw [h, show (-1#11).toNat = 2047 from rfl] at exponent
    omega
  have notZero : BitVec.ofNat 11 (e + 1075).toNat ≠ 0#11 := fun h => by
    rw [h, show (0#11).toNat = 0 from rfl] at exponent
    omega
  have mantissa : (1#1 ++ BitVec.ofNat 52 m).toNat = m := by
    rw [leading_one, BitVec.toNat_ofNat]
    omega
  rw [UnpackedFloat.unpack]
  simp only [unpackMantissa_packComponents, unpackExponent_packComponents, sign_packed, notFull,
    notZero, if_false, mantissa, exponent]
  congr 1
  change ((e + 1075).toNat : Int) - (1023 + 52) = e
  omega

/-- Fewer digits have the least exponent. -/
theorem unpack_least {m : Nat} (s : Sign) (pos : 0 < m) (short : m < 2 ^ 52) :
    UnpackedFloat.unpack .binary64 (packComponents .binary64 s 0#11 (BitVec.ofNat 52 m)) =
      .finite s m (-1074) pos := by
  have mantissa : (BitVec.ofNat 52 m).toNat = m := by
    rw [BitVec.toNat_ofNat, Nat.mod_eq_of_lt short]
  have notZero : BitVec.ofNat 52 m ≠ 0#52 := fun h => by
    rw [h, show (0#52).toNat = 0 from rfl] at mantissa
    omega
  rw [UnpackedFloat.unpack]
  simp only [unpackMantissa_packComponents, unpackExponent_packComponents, sign_packed,
    show ¬ (0#11 = -1#11) from by decide, if_false, if_true, notZero, mantissa]
  rfl

theorem unpack_pack {f : UnpackedFloat} (fits : Fits f) :
    UnpackedFloat.unpack .binary64 (UnpackedFloat.pack .binary64 f) = f := by
  cases f with
  | infinity s => cases s <;> rfl
  | notANumber => rfl
  | zero s => cases s <;> rfl
  | finite s m e pos =>
    obtain ⟨digits, low, high, normal⟩ := fits
    have biased : (e + Format.binary64.exponentBias +
        Format.binary64.mantissaBitsWithoutImplicit).toNat = (e + 1075).toNat := by
      change (e + (1023 : Nat) + (52 : Nat)).toNat = _
      omega
    have inPlace : ¬ 2 ^ 11 ≤ (e + 1075).toNat + 1 := by omega
    rw [UnpackedFloat.pack]
    simp only [biased, if_neg inPlace]
    by_cases full : 2 ^ 52 ≤ m
    · have log : m.log2 + 1 = Format.binary64.mantissaBits :=
        congrArg (· + 1) ((Nat.log2_eq_iff pos.ne').mpr ⟨full, digits⟩)
      rw [if_pos log]
      exact unpack_normal s pos digits full low high
    · have log : ¬ m.log2 + 1 = Format.binary64.mantissaBits := fun h =>
        full ((Nat.log2_eq_iff pos.ne').mp (Nat.succ.inj h)).1
      obtain rfl : e = -1074 := normal.resolve_left full
      rw [if_neg log]
      exact unpack_least s pos (not_le.mp full)

theorem Fits.neg {f : UnpackedFloat} (fits : Fits f) : Fits f.neg := by
  cases f <;> exact fits

theorem unpack_neg (v : Float) : (-v).toModel.unpack = v.toModel.unpack.neg :=
  unpack_pack (fits_unpack _).neg

end Packing

section Numbers

variable {K : Type*} [Field K]

def signed (s : Sign) (x : K) : K :=
  match s with
  | .negative => -x
  | .positive => x

/-- The number that a float is; `infinity` stands for the infinite one. -/
def number (infinity : K) : UnpackedFloat → K
  | .notANumber => 0
  | .infinity s => signed s infinity
  | .zero _ => 0
  | .finite s m e _ => signed s (m * 2 ^ e)

variable (infinity : K)

theorem signed_neg (s : Sign) (x : K) : signed (-s) x = -signed s x := by
  cases s
  · exact (neg_neg x).symm
  · rfl

theorem number_neg (f : UnpackedFloat) : number infinity f.neg = -number infinity f := by
  cases f with
  | infinity s => exact signed_neg s infinity
  | notANumber => exact neg_zero.symm
  | zero s => exact neg_zero.symm
  | finite s m e pos => exact signed_neg s _

theorem number_eq_of_beq {f g : UnpackedFloat} (same : UnpackedFloat.beq f g = true) :
    number infinity f = number infinity g := by
  unfold UnpackedFloat.beq at same
  have same := eq_of_beq same
  have then_eq {m n : Nat} {d e : Int} (h : (compare d e).then (compare m n) = .eq) :
      d = e ∧ m = n := by
    rw [Ordering.then_eq_eq] at h
    exact ⟨compare_eq_iff_eq.mp h.1, compare_eq_iff_eq.mp h.2⟩
  cases f with
  | notANumber => cases same
  | infinity s =>
    cases g with
    | infinity s' =>
      cases s <;> cases s'
      · rfl
      · cases same
      · cases same
      · rfl
    | notANumber => cases same
    | zero _ => cases s <;> cases same
    | finite _ _ _ _ => cases s <;> cases same
  | zero _ =>
    cases g with
    | infinity s' => cases s' <;> cases same
    | notANumber => cases same
    | zero _ => rfl
    | finite s' _ _ _ => cases s' <;> cases same
  | finite s m e _ =>
    cases g with
    | infinity s' => cases s <;> cases s' <;> cases same
    | notANumber => cases s <;> cases same
    | zero _ => cases s <;> cases same
    | finite s' n d _ =>
      cases s <;> cases s'
      · obtain ⟨rfl, rfl⟩ := then_eq (Ordering.swap_inj.mp (Option.some.inj same))
        rfl
      · cases same
      · cases same
      · obtain ⟨rfl, rfl⟩ := then_eq (Option.some.inj same)
        rfl

theorem shift_of_digits {m : Nat} {e : Int} (digits : m < 2 ^ 53) (low : -1074 ≤ e) :
    shiftToTargetExponent .binary64 m e .exact = (⟨m, false, false⟩, e) := by
  have log : m.log2 < 53 := by
    by_cases zero : m = 0
    · subst zero
      decide
    · exact (Nat.log2_lt zero).mpr digits
  have target : (Format.binary64.targetExponent (totalExponent m e) - e).toNat = 0 := by
    change (max ((m.log2 : Int) + 1 + e - 53) (-1074) - e).toNat = 0
    omega
  rw [shiftToTargetExponent, shiftToExponent, target]
  simp [HShiftRight.hShiftRight, Nat.repeat, ExtendedMantissa.ofMantissaAndAccuracy]

/-- A whole number below `2 ^ 53` gets all its digits, moved to their place. -/
theorem ofNat_eq {n : Nat} (pos : 0 < n) (bound : n < 2 ^ 53) :
    ∃ pos', UnpackedFloat.ofNat .binary64 n =
      .finite .positive (n <<< (52 - n.log2)) (n.log2 - 52) pos' := by
  have log : n.log2 < 53 := (Nat.log2_lt pos.ne').mpr bound
  have size : n <<< (52 - n.log2) < 2 ^ 53 := by
    have := Nat.mul_lt_mul_of_pos_right (Nat.lt_log2_self (n := n)) (Nat.two_pow_pos (52 - n.log2))
    rwa [← Nat.pow_add, show n.log2 + 1 + (52 - n.log2) = 53 by omega, ← Nat.shiftLeft_eq] at this
  have shifted : 0 < n <<< (52 - n.log2) := by
    rw [Nat.shiftLeft_eq]
    positivity
  have sign : compare (n : Int) 0 = .gt := compare_gt_iff_gt.mpr (by omega)
  have target : Format.binary64.targetExponent (totalExponent n 0) = (n.log2 : Int) - 52 := by
    change max ((n.log2 : Int) + 1 + 0 - 53) (-1074) = _
    omega
  have amount : (0 - ((n.log2 : Int) - 52)).toNat = 52 - n.log2 := by omega
  have moved : (0 : Int) - ((52 - n.log2 : Nat) : Int) = n.log2 - 52 := by omega
  refine ⟨shifted, ?_⟩
  rw [UnpackedFloat.ofNat, UnpackedFloat.ofInt, UnpackedFloat.normalize, sign]
  simp only [UnpackedFloat.round, target, decreaseExponent, amount, moved, Int.toNat_natCast,
    roundWithAccuracy, shift_of_digits size (show -1074 ≤ (n.log2 : Int) - 52 by omega),
    ExtendedMantissa.roundedMantissa, ExtendedMantissa.accuracy, Accuracy.roundToNearestEven,
    shifted.ne', dite_false]

/-- The float of a whole number of 32 bits is that number. -/
theorem number_toFloat [CharZero K] (n : UInt32) :
    number infinity n.toFloat.toModel.unpack = (n.toNat : K) := by
  have bound : n.toNat < 2 ^ 32 := n.toNat_lt
  rcases Nat.eq_zero_or_pos n.toNat with zero | pos
  · obtain rfl : n = 0 := UInt32.toNat_inj.mp zero
    exact Nat.cast_zero.symm
  · obtain ⟨pos', shape⟩ := ofNat_eq pos (by omega)
    have log : n.toNat.log2 < 32 := (Nat.log2_lt pos.ne').mpr bound
    have fits : Fits (UnpackedFloat.ofNat .binary64 n.toNat) := by
      rw [shape]
      have low := Nat.mul_le_mul_right (2 ^ (52 - n.toNat.log2)) (Nat.log2_self_le pos.ne')
      have high := Nat.mul_lt_mul_of_pos_right (Nat.lt_log2_self (n := n.toNat))
        (Nat.two_pow_pos (52 - n.toNat.log2))
      rw [← Nat.pow_add, ← Nat.shiftLeft_eq] at low high
      rw [show n.toNat.log2 + (52 - n.toNat.log2) = 52 by omega] at low
      rw [show n.toNat.log2 + 1 + (52 - n.toNat.log2) = 53 by omega] at high
      exact ⟨high, by omega, by omega, .inl low⟩
    have packed : n.toFloat.toModel.unpack = UnpackedFloat.ofNat .binary64 n.toNat :=
      unpack_pack fits
    have cancel : ((n.toNat.log2 : Int) - 52) = -((52 - n.toNat.log2 : Nat) : Int) := by omega
    rw [packed, shape, number, signed, Nat.shiftLeft_eq, cancel, zpow_neg, zpow_natCast]
    push_cast
    exact mul_inv_cancel_right₀ (pow_ne_zero _ two_ne_zero) _

end Numbers
end Ember.Exact
