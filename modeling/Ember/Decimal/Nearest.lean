/-!
# The double nearest to a fraction

A double is `m * 2 ^ k` with `m` below `2 ^ 53` and `k` at least `-1074`. Half a step goes to the even
neighbour, and what is too large is infinite.
-/
set_option autoImplicit false

namespace Ember.Decimal

/-- A quotient rounded to the nearest whole number, and to the even one of two. -/
def roundDiv (num den : Nat) : Nat :=
  let below := num / den
  let twice := 2 * (num % den)
  if twice < den ∨ (twice = den ∧ below % 2 = 0) then below else below + 1

/-- The exponent of the power of two at or below a quotient. -/
def log2Div (num den : Nat) : Int :=
  let l : Int := (num.log2 : Int) - den.log2
  if den * Nat.pow 2 l.toNat ≤ num * Nat.pow 2 (-l).toNat then l else l - 1

/-- The bit above the 52 that a double stores of its mantissa. -/
def hiddenBit : Nat := Nat.pow 2 52

def infiniteBits : Nat := 2047 * hiddenBit

def nearestBits (num den : Nat) : Nat :=
  let k := max (log2Div num den - 52) (-1074)
  let m := roundDiv (num * Nat.pow 2 (-k).toNat) (den * Nat.pow 2 k.toNat)
  min infiniteBits (if m < hiddenBit then m else ((k + 1075).toNat - 1) * hiddenBit + m)

/-- The double nearest to `m * 10 ^ e`. What is far out of range is decided without computing the
power. -/
def nearest (m : Nat) (e : Int) : Float :=
  let size := e + (Nat.toDigits 10 m).length
  if m = 0 ∨ size < -400 then 0
  else Float.ofBits (UInt64.ofNat (if size > 400 then infiniteBits
    else nearestBits (m * Nat.pow 10 e.toNat) (Nat.pow 10 (-e).toNat)))

end Ember.Decimal
