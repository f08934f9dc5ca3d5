import Ember.Decimal.Shortest

/-!
# How numbers are written

A number is written with the fewest digits that read back as it, and always with a fraction or an
exponent. From `0.0001` up to below `1e16` the point stands in its place; other numbers have an
exponent.
-/
set_option autoImplicit false

namespace Ember.Decimal

inductive Number where
  | nan
  | infinite (negative : Bool)
  | finite (negative : Bool) (magnitude : Binary)

/-- A format with `width` bits for the fraction, `range` for the exponent, and a sign before them. -/
def Number.ofBits (width range bits : Nat) : Number :=
  let fraction := bits % Nat.pow 2 width
  let exponent := bits / Nat.pow 2 width % Nat.pow 2 range
  let negative := bits / Nat.pow 2 (width + range) % 2 == 1
  let lowest : Int := 2 - Nat.pow 2 (range - 1) - width
  if exponent == Nat.pow 2 range - 1 then
    if fraction == 0 then .infinite negative else .nan
  else if exponent == 0 then .finite negative ⟨fraction, lowest, false⟩
  else .finite negative
    ⟨fraction + Nat.pow 2 width, lowest + (exponent - 1), fraction == 0 && exponent > 1⟩

def Number.ofSingle (v : Float32) : Number := .ofBits 23 8 v.toBits.toNat

def Number.ofDouble (v : Float) : Number := .ofBits 52 11 v.toBits.toNat

/-- Where positional notation ends, counted in digits before the point. -/
structure Positional where
  least : Int
  most : Int

/-- `0.0001` has `-3` digits before the point, and `1e16` is the first with 17. -/
def positional : Positional := ⟨-3, 16⟩

def zeros (n : Nat) : List Char := List.replicate n '0'

/-- Digits with the point after the first `place` of them. -/
def pointed (digits : List Char) (place : Int) : List Char :=
  if place ≤ 0 then '0' :: '.' :: (zeros (-place).toNat ++ digits)
  else if place < digits.length then digits.take place.toNat ++ '.' :: digits.drop place.toNat
  else digits ++ zeros (place.toNat - digits.length) ++ ['.', '0']

def scientific (digits : List Char) (place : Int) : List Char :=
  let mantissa := match digits with
    | [] => ['0']
    | [d] => [d]
    | d :: rest => d :: '.' :: rest
  mantissa ++ 'e' :: (toString (place - 1)).toList

def significant (n : Nat) : List Char :=
  ((Nat.toDigits 10 n).reverse.dropWhile (· == '0')).reverse

def Scaled.text (s : Scaled) : String :=
  let place := s.exponent + digitCount s.digits
  let digits := significant s.digits
  String.ofList <|
    if positional.least ≤ place ∧ place ≤ positional.most then pointed digits place
    else scientific digits place

def Binary.text (b : Binary) : String :=
  if b.mantissa = 0 then "0.0" else b.shortest.text

def Number.text : Number → String
  | .nan => "NaN"
  | .infinite negative => if negative then "-inf" else "inf"
  | .finite negative b => (if negative then "-" else "") ++ b.text

end Ember.Decimal
