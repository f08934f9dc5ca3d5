import Ember.Failure
import Ember.Syntax.Basic

/-!
# Derivatives

The derivative of an expression by a variable, as an expression.

Other names count as constants. Sums, products and quotients with `0` or `1` in them are simplified
on the way.
-/
set_option autoImplicit false

namespace Ember

namespace Expr

def number (v : Float) (span : Span) : Expr := ⟨.lit (.float v), span⟩

def whole (v : Int32) : Float :=
  let size := (UInt32.ofNat v.toInt.natAbs).toFloat
  if v.toInt < 0 then -size else size

def number? (e : Expr) : Option Float :=
  match e.kind with
  | .lit (.float v) => some v
  | .lit (.int v) => some (whole v)
  | _ => none

def isNumber (e : Expr) (v : Float) : Bool := e.number?.any (· == v)

def binary (op : BinaryOp) (a b : Expr) : Expr := ⟨.binary op a b, a.span.merge b.span⟩

def negative (a : Expr) : Expr :=
  match a.number? with
  | some v => number (-v) a.span
  | none => ⟨.unary .neg a, a.span⟩

def sum (a b : Expr) : Expr :=
  if a.isNumber 0 then b else if b.isNumber 0 then a else binary .add a b

def difference (a b : Expr) : Expr :=
  if b.isNumber 0 then a else if a.isNumber 0 then negative b else binary .sub a b

def product (a b : Expr) : Expr :=
  if a.isNumber 0 || b.isNumber 0 then number 0 (a.span.merge b.span)
  else if a.isNumber 1 then b
  else if b.isNumber 1 then a
  else binary .mul a b

def quotient (a b : Expr) : Expr :=
  if a.isNumber 0 || b.isNumber 1 then a else binary .div a b

/-- A call of a function that no declaration hides. -/
def callBuiltin (name : String) (arg : Expr) : Expr :=
  ⟨.call ⟨.builtin name, arg.span⟩ [] [arg], arg.span⟩

def calledName? (callee : Expr) : Option String :=
  match callee.kind with
  | .ident name | .builtin name => some name
  | _ => none

mutual

def mentions (x : String) : Expr → Bool
  | ⟨.lit _, _⟩ | ⟨.param _, _⟩ | ⟨.builtin _, _⟩ | ⟨.symbol _, _⟩ => false
  | ⟨.ident name, _⟩ => name == x
  | ⟨.unary _ a, _⟩ => mentions x a
  | ⟨.binary _ a b, _⟩ => mentions x a || mentions x b
  | ⟨.call _ _ args, _⟩ => anyMentions x args
  | _ => true

def anyMentions (x : String) : List Expr → Bool
  | [] => false
  | e :: es => mentions x e || anyMentions x es

end

/-- The derivative of a function of `u`, where `du` is that of `u`. -/
def chain (name : String) (u du : Expr) (span : Span) : Except Failure Expr :=
  if name = "sin" then .ok (product (callBuiltin "cos" u) du)
  else if name = "cos" then .ok (product (negative (callBuiltin "sin" u)) du)
  else if name = "exp" then .ok (product (callBuiltin "exp" u) du)
  else if name = "sqrt" then .ok (quotient du (product (number 2 span) (callBuiltin "sqrt" u)))
  else if name = "ln" then .ok (quotient du u)
  else .error ((Failure.unsupported .derivative).locate span)

def derivative (x : String) : Expr → Except Failure Expr
  | ⟨.lit _, span⟩ | ⟨.param _, span⟩ | ⟨.builtin _, span⟩ | ⟨.symbol _, span⟩ =>
    .ok (number 0 span)
  | ⟨.ident name, span⟩ => .ok (number (if name = x then 1 else 0) span)
  | ⟨.unary .neg a, _⟩ => do return negative (← derivative x a)
  | ⟨.binary .add a b, _⟩ => do return sum (← derivative x a) (← derivative x b)
  | ⟨.binary .sub a b, _⟩ => do return difference (← derivative x a) (← derivative x b)
  | ⟨.binary .mul a b, _⟩ => do
    return sum (product (← derivative x a) b) (product a (← derivative x b))
  | ⟨.binary .div a b, _⟩ => do
    return quotient (difference (product (← derivative x a) b) (product a (← derivative x b)))
      (product b b)
  | ⟨.binary .pow a b, span⟩ =>
    if mentions x b then .error ((Failure.unsupported .powerDerivative).locate span)
    else do
      return product (product b (binary .pow a (difference b (number 1 span)))) (← derivative x a)
  | ⟨.call callee [] [u], span⟩ =>
    match callee.calledName? with
    | some name => do chain name u (← derivative x u) span
    | none => .error ((Failure.unsupported .derivative).locate span)
  | ⟨.block ⟨[], some tail, _⟩, _⟩ => derivative x tail
  | ⟨_, span⟩ => .error ((Failure.unsupported .derivative).locate span)

end Expr
end Ember
