import Ember.Lower.Pattern

/-!
# Statements
-/
set_option autoImplicit false

namespace Ember

open Emit

namespace Lowering

def letBind (cx : Lowering) (pat : Pat) (ty : Option TypeExpr) (value : Expr) : Emit Unit := do
  let v ← cx.expr value
  let v ← match ty with
    | some ty => do expect cx.target v (← cx.type ty) value.span
    | none => pure v
  if !pat.isIrrefutable then locating pat.span (problem (.refutable "let"))
  cx.bindPattern pat v

def assigned (cx : Lowering) (op : AssignOp) (place v : Value) (span : Span) : Emit Value :=
  match op.binary? with
  | some b => cx.operator b.overloads b.symbol [place, v] span
  | none => pure v

def assign (cx : Lowering) (op : AssignOp) (target value : Expr) : Emit Unit := do
  let place ← cx.expr target
  let v ← cx.expr value
  if place.ty.isVoid then discard cx.target v
  else if !place.assignable then locating target.span (problem .notAssignable)
  else
    let v ← expect cx.target (← cx.assigned op place v value.span) place.ty value.span
    let p ← place.toCode cx.target
    line (.assign p (← ownedCode cx.target v))

/-- GLSL cannot stop, so only JavaScript tests what is not known. -/
def assert (cx : Lowering) (cond : Expr) : Emit Unit := do
  let v ← expect cx.target (← cx.expr cond) .bool cond.span
  match v.const?, v.truth? with
  | some _, some true => pure ()
  | some _, _ => locating cond.span (problem .assertionFailed)
  | none, _ => if cx.target == .js then line (.require (← v.toCode cx.target))

/-- Leaves or continues a loop: the innermost, or the innermost of a label. -/
def jump (cx : Lowering) (kind : JumpKind) (label : Option Ident) : Emit Unit := do
  let loops : List Loop ← look (·.frame.loops)
  let found := match label with
    | none => if loops.isEmpty then none else some 0
    | some l => loops.findIdx? fun loop : Loop => loop.label == some l.name
  match found, label with
  | none, none => problem (.outsideLoop kind.keyword)
  | none, some l => problem (.noSuchLabel l.name)
  | some 0, _ => line (.jump kind none)
  | some i, _ =>
    match loops[i]?.bind Loop.backend with
    | some backend => line (.jump kind (some backend))
    | none => throw (Failure.unsupported (.labelledJump kind.keyword cx.target.name))

def stmt (cx : Lowering) (s : Stmt) : Emit Unit :=
  locating s.span (match s.kind with
    | .empty => pure ()
    | .letBind pat ty value => cx.letBind pat ty value
    | .assign op target value => cx.assign op target value
    | .expr e => do discard cx.target (← cx.expr e)
    | .assert cond => cx.assert cond
    | .breakLoop label => cx.jump .leave label
    | .continueLoop label => cx.jump .proceed label)

def stmts (cx : Lowering) : List Stmt → Emit Unit
  | [] => pure ()
  | s :: ss => do
    cx.stmt s
    stmts cx ss

def blockStep (cx : Lowering) (b : Block) : Emit Value := do
  cx.stmts b.stmts
  match b.tail with
  | some tail => cx.expr tail
  | none => voidValue

end Lowering
end Ember
