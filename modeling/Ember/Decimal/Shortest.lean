/-!
# The shortest decimal for a binary number

A finite positive number of a binary format is `m * 2 ^ q`. It stands for every real that rounds to
it: those up to half a step away, the two ends included if `m` is even. Below a power of two the
next number is only half as far away. Of the decimals in that interval the one with the fewest
digits is taken, and of two such the nearer to the number itself.
-/
set_option autoImplicit false

namespace Ember.Decimal

/-- `mantissa * 2 ^ exponent`; `narrow` if the number below is half as far away as the one above. -/
structure Binary where
  mantissa : Nat
  exponent : Int
  narrow : Bool

structure Scaled where
  digits : Nat
  exponent : Int

/-- How many digits a number has; zero has none. -/
def digitCount (n : Nat) : Nat := if n = 0 then 0 else (Nat.toDigits 10 n).length

/-- The least `k` with `num / den < 10 ^ k`. -/
def magnitude (num den : Nat) : Int :=
  if den ≤ num then (digitCount (num / den) : Int)
  else 1 - (digitCount ((den + num - 1) / num - 1) : Int)

/-- The interval of a number in quarter steps: the number and the two ends, over one denominator. -/
structure Interval where
  value : Nat
  low : Nat
  high : Nat
  den : Nat
  closed : Bool

def Binary.interval (b : Binary) : Interval :=
  let up := Nat.pow 2 (b.exponent - 2).toNat
  { value := 4 * b.mantissa * up
    low := (4 * b.mantissa - (if b.narrow then 1 else 2)) * up
    high := (4 * b.mantissa + 2) * up
    den := Nat.pow 2 (2 - b.exponent).toNat
    closed := b.mantissa % 2 == 0 }

/-- Whether `n * 10 ^ e` lies in the interval. -/
def Interval.holds (i : Interval) (n : Nat) (e : Int) : Bool :=
  let left := n * Nat.pow 10 e.toNat * i.den
  let scale := Nat.pow 10 (-e).toNat
  if i.closed then i.low * scale ≤ left && left ≤ i.high * scale
  else i.low * scale < left && left < i.high * scale

/-- The neighbour of the value on the grid of `10 ^ e` that lies in the interval. -/
def Interval.onGrid? (i : Interval) (e : Int) : Option Nat :=
  let num := i.value * Nat.pow 10 (-e).toNat
  let den := i.den * Nat.pow 10 e.toNat
  let below := num / den
  match i.holds below e, i.holds (below + 1) e with
  | true, true => some (if 2 * (num % den) < den then below else below + 1)
  | true, false => some below
  | false, true => some (below + 1)
  | false, false => none

/-- The first grid that has a neighbour in the interval, from `count` digits on. -/
def Interval.search (i : Interval) (top : Int) (count : Nat) : Nat → Scaled
  | 0 => ⟨i.value / i.den, 0⟩
  | rounds + 1 =>
    match i.onGrid? (top - count) with
    | some n => ⟨n, top - count⟩
    | none => i.search top (count + 1) rounds

/-- Seventeen digits tell all doubles apart. -/
def Binary.shortest (b : Binary) : Scaled :=
  let i := b.interval
  i.search (magnitude i.value i.den) 1 17

end Ember.Decimal
