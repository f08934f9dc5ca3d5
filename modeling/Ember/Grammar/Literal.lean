import Ember.Decimal.Read
import Ember.Grammar.Basic

/-!
# Literals

Integers have 32 bits; hexadecimal ones give the bits, so their top bit is the sign.
-/
set_option autoImplicit false

namespace Ember.Grammar

def int32? (v : Int) : Option Int32 :=
  if -2147483648 ≤ v ∧ v ≤ 2147483647 then some (Int32.ofInt v) else none

/-- The value of a literal, with a minus sign before it if `negate` says so. -/
def literal? (t : Token) (negate : Bool) : Except IssueCode Lit :=
  let cs := t.text.toList
  match t.kind with
  | .keyword .kwTrue => .ok (.bool true)
  | .keyword .kwFalse => .ok (.bool false)
  | .int =>
    match (Decimal.natural? 10 cs).bind fun n => int32? (if negate then -(n : Int) else n) with
    | some v => .ok (.int v)
    | none => .error .integerTooLarge
  | .hex =>
    match Decimal.natural? 16 (cs.drop 2) with
    | some n =>
      if n < 4294967296 then
        let v := Int32.ofInt n
        .ok (.int (if negate then -v else v))
      else .error .integerTooLarge
    | none => .error .integerTooLarge
  | _ =>
    match Decimal.float? cs with
    | some v => .ok (.float (if negate then -v else v))
    | none => .error .invalidNumber

/-- The value of a literal; one that is out of range is reported and read as zero. -/
def literal (t : Token) (negate : Bool) : Parser Lit :=
  match literal? t negate with
  | .ok l => return l
  | .error code => do
    Parser.raise code t.span
    return if t.kind = .int ∨ t.kind = .hex then .int 0 else .float 0

end Ember.Grammar
