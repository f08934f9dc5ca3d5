import Ember.Derivative
import Ember.Lower.Control
import Ember.Lower.Literal
import Ember.Lower.Statement

/-!
# Expressions, and lowering as a whole

`Lowering.ofDepth n` lowers what nests up to `n` deep, counted over the bodies of called functions
too. What nests deeper fails.
-/
set_option autoImplicit false

namespace Ember

open Emit

namespace Lowering

/-- A name: a local value, a constant, or a function called without arguments. -/
def ident (cx : Lowering) (name : String) (span : Span) : Emit Value := do
  let env ← look (·.program.env)
  match ← local? name with
  | some v => return v
  | none =>
    match env.const? name with
    | some v => return v
    | none =>
      if env.hasFn name then cx.call name [] [] span
      else if (env.type? name).isSome then problem (.typeAsValue name)
      else problem (.undefinedName name)

def builtin (cx : Lowering) (name : String) (span : Span) : Emit Value := do
  match (← look (·.program.env)).root.consts.lookup name with
  | some v => return v
  | none => cx.callBuiltin name [] [] span

/-- A value from outside, which is never known. -/
def param (cx : Lowering) (name : String) : Emit Value := do
  match (← look (·.program.env)).param? name with
  | none => problem (.undeclaredParam name)
  | some ty =>
    return .code (.name (match cx.target with
      | .glsl => "u_" ++ name
      | .js => "$" ++ name)) ty

def exprs (cx : Lowering) : List Expr → Emit (List Value)
  | [] => pure []
  | e :: es => do
    let v ← cx.expr e
    return v :: (← exprs cx es)

def callExpr (cx : Lowering) (callee : Expr) (typeArgs : List TypeExpr) (args : List Expr)
    (span : Span) : Emit Value := do
  let values ← cx.exprs args
  let types ← cx.types typeArgs
  match callee.kind with
  | .ident name =>
    let env ← look (·.program.env)
    if (← local? name).isSome && !env.hasFn name then problem (.localCalled name)
    cx.call name values types span
  | .builtin name => cx.callBuiltin name values types span
  | _ => locating callee.span (problem .unnamedCalled)

def exprStep (cx : Lowering) (e : Expr) : Emit Value :=
  locating e.span (match e.kind with
    | .empty => defect .exprPlaceholder
    | .lit l => pure (literal l)
    | .ident name => cx.ident name e.span
    | .builtin name => cx.builtin name e.span
    | .param name => cx.param name
    | .symbol name => do return .const .void (← symbolTy name)
    | .binary op lhs rhs => do
      let a ← cx.expr lhs
      let b ← cx.expr rhs
      cx.operator op.overloads op.symbol [a, b] e.span
    | .unary op operand => do
      let a ← cx.expr operand
      cx.operator op.overloads op.symbol [a] e.span
    | .deriv var body => do cx.expr (← body.derivative var.name)
    | .range _ _ => problem .rangeAlone
    | .call callee typeArgs args => cx.callExpr callee typeArgs args e.span
    | .methodCall receiver method args => do
      let values ← cx.exprs (receiver :: args)
      cx.call method.name values [] e.span
    | .field base field => do fieldNamed cx.target (← cx.expr base) field
    | .index base i => do
      let b ← cx.expr base
      Emit.index cx.target b (← cx.expr i)
    | .structLit head fields => cx.structLit head fields
    | .array items => cx.arrayLit items
    | .block b => nested (cx.block b)
    | .ifElse cond thenBlock elseBranch => cx.ifElse cond thenBlock elseBranch
    | .matchArms subject arms => cx.matchArms subject arms e.span
    | .forLoop label pat iter body => cx.forLoop label pat iter body
    | .source _ => problem .sourceAlone)

def ofDepth (target : Target) : Nat → Lowering
  | 0 =>
    { target
      expr := fun e => locating e.span (throw (.unsupported .depth))
      block := fun b => locating b.span (throw (.unsupported .depth))
      join := joinSides target
      user := fun _ _ _ span => locating span (throw (.unsupported .depth)) }
  | n + 1 =>
    { target
      expr := fun e s => exprStep (ofDepth target n) e s
      block := fun b s => blockStep (ofDepth target n) b s
      join := joinSides target
      user := fun f args typeArgs span s => f.call (ofDepth target n) args typeArgs span s }

/-- More than any program that fits in memory nests, if it does not call itself with ever new
types. -/
def depthLimit : Nat := 4294967296

def toTarget (target : Target) : Lowering := ofDepth target depthLimit

end Lowering
end Ember
