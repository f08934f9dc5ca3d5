import Ember.Decimal.Notation
import Ember.Scalar
import Ember.Target

/-!
# Constants

Values known before the program runs, and how scalars are written.

A struct has an entry for each field, those without a value included, and an array one for each
element. Where a field is kept is no concern of a constant.
-/
set_option autoImplicit false

namespace Ember

namespace Scalar

/-- A number below zero stands in parentheses, so that it may stand beside any operator. -/
def floatText (target : Target) (v : Float32) : String :=
  match Decimal.Number.ofSingle v, target with
  | .nan, .js => "NaN"
  | .nan, .glsl => "uintBitsToFloat(0x7fc00000u)"
  | .infinite false, .js => "Infinity"
  | .infinite true, .js => "(-Infinity)"
  | .infinite false, .glsl => "uintBitsToFloat(0x7f800000u)"
  | .infinite true, .glsl => "uintBitsToFloat(0xff800000u)"
  | .finite negative b, _ =>
    if negative && b.mantissa != 0 then "(-" ++ b.text ++ ")" else b.text

/-- GLSL reads a sign and digits apart, and has no digits for the least number. -/
def intText (target : Target) (v : Int32) : String :=
  if v == Int32.minValue && target == .glsl then "(-2147483647 - 1)"
  else if v < 0 then "(" ++ toString v.toInt ++ ")"
  else toString v.toInt

def text (target : Target) : Scalar → String
  | .float v => floatText target v
  | .int v => intText target v
  | .bool v => toString v

/-- A scalar as messages show it. -/
def shown : Scalar → String
  | .float v => "Float(" ++ (Decimal.Number.ofSingle v).text ++ ")"
  | .int v => "Int(" ++ toString v.toInt ++ ")"
  | .bool v => "Bool(" ++ toString v ++ ")"

end Scalar

inductive Constant where
  | scalar (s : Scalar)
  | aggregate (items : List Constant)
  deriving Inhabited

namespace Constant

/-- The only value of a type without values to tell apart. -/
def void : Constant := .aggregate []

def scalar? : Constant → Option Scalar
  | .scalar s => some s
  | .aggregate _ => none

def items? : Constant → Option (List Constant)
  | .scalar _ => none
  | .aggregate items => some items

def isScalar (c : Constant) : Bool := c.scalar?.isSome

mutual

def same : Constant → Constant → Bool
  | .scalar a, .scalar b => a.same b
  | .aggregate as, .aggregate bs => sameAll as bs
  | _, _ => false

def sameAll : List Constant → List Constant → Bool
  | [], [] => true
  | a :: as, b :: bs => a.same b && sameAll as bs
  | _, _ => false

end

mutual

def shown : Constant → String
  | .scalar s => s.shown
  | .aggregate items => "Aggregate([" ++ String.intercalate ", " (shownAll items) ++ "])"

def shownAll : List Constant → List String
  | [] => []
  | c :: cs => c.shown :: shownAll cs

end

end Constant
end Ember
