import Ember.Lower.Pattern

/-!
# Conditions, matches and loops

Of a condition that is known, only one side is lowered. Otherwise both sides are, and if neither
writes anything the value is a choice between theirs. If one does, both assign a variable.
-/
set_option autoImplicit false

namespace Ember

open Emit

namespace Lowering

/-- The type of both sides: the one that accepts the other. -/
def joinTy (what : String) (a b : Ty) : Except Failure Ty :=
  if a.accepts b then .ok a
  else if b.accepts a then .ok b
  else .error (.problem (.branchTypes what a.name b.name))

def joinSides (target : Target) (cond : Value) (yes no : Side) (what : String) : Emit Value := do
  let ty ← joinTy what yes.1.ty no.1.ty
  let a ← yes.1.convert target ty
  let b ← no.1.convert target ty
  let c ← cond.toCode target
  if ty.isVoid then
    if !(yes.2.isEmpty && no.2.isEmpty) then line (.branch c yes.2 no.2)
    voidValue
  else if yes.2.isEmpty && no.2.isEmpty && ty.array?.isNone then
    return .code (.paren (.choice c (← a.toCode target) (← b.toCode target))) ty
  else
    let name ← temp
    declareVar name ty none true
    let x ← a.toCode target
    let y ← b.toCode target
    line (.branch c (yes.2 ++ [.assign (.name name) x]) (no.2 ++ [.assign (.name name) y]))
    return .code (.name name) ty

def ifElse (cx : Lowering) (cond : Expr) (thenBlock : Block) (elseBranch : Option Expr) :
    Emit Value := do
  let c ← expect cx.target (← cx.expr cond) .bool cond.span
  match c.truth?, elseBranch with
  | some true, _ => nested (cx.block thenBlock)
  | some false, some other => cx.expr other
  | some false, none => voidValue
  | none, _ =>
    let yes ← inBlock (cx.block thenBlock)
    let no ← match elseBranch with
      | some other => inBlock (cx.expr other)
      | none => do pure (← voidValue, [])
    cx.join c yes no "`if`"

def arm (cx : Lowering) (subject : Value) (a : MatchArm) : Emit Value := do
  cx.bindPattern a.pat subject
  cx.expr a.body

def arms (cx : Lowering) (subject : Value) (span : Span) : List MatchArm → Emit Value
  | [] => locating span (problem .notExhaustive)
  | a :: rest => do
    let test ← locating a.pat.span (cx.testPattern a.pat subject)
    match test.const?, test.truth? with
    | some _, some true => nested (cx.arm subject a)
    | some _, _ => arms cx subject span rest
    | none, _ =>
      let yes ← inBlock (cx.arm subject a)
      let no ← inBlock (arms cx subject span rest)
      cx.join test yes no "`match`"

def matchArms (cx : Lowering) (subject : Expr) (all : List MatchArm) (span : Span) :
    Emit Value := do
  let v ← cx.expr subject
  let v ← v.nonVoid "`match` subject"
  cx.arms (← cache cx.target v) span all

def loopLabel (cx : Lowering) : Option Ident → Emit (Option String)
  | none => pure none
  | some label =>
    match cx.target with
    | .js => do return some (← fresh label.name)
    | .glsl => locating label.span (throw (.unsupported (.loopLabel "glsl")))

structure Counter where
  var : String
  start : Code
  stop : Code
  element : Value

def stemOf (pat : Pat) : String :=
  match pat.kind with
  | .bind name _ => name
  | _ => "i"

def rangeCounter (cx : Lowering) (pat : Pat) (start stop : Expr) : Emit Counter := do
  let a ← expect cx.target (← cx.expr start) .i32 start.span
  let b ← expect cx.target (← cx.expr stop) .i32 stop.span
  let b ← cache cx.target b
  let var ← fresh (stemOf pat)
  return ⟨var, ← a.toCode cx.target, ← b.toCode cx.target, .code (.name var) .i32⟩

def arrayCounter (cx : Lowering) (iter : Expr) : Emit Counter := do
  let v ← cx.expr iter
  match v.ty.array? with
  | none => locating iter.span (problem (.notIterable v.ty.name))
  | some (of, len) =>
    let c ← cachedCode cx.target v
    let var ← temp
    return ⟨var, .lit (.int 0), .lit (.int (Int32.ofNat len)), .code (.index c (.name var)) of⟩

def counter (cx : Lowering) (pat : Pat) (iter : Expr) : Emit Counter :=
  match iter.kind with
  | .range (some start) (some stop) => cx.rangeCounter pat start stop
  | .range _ _ => locating iter.span (problem .openRange)
  | _ => cx.arrayCounter iter

def forLoop (cx : Lowering) (label : Option Ident) (pat : Pat) (iter : Expr) (body : Block) :
    Emit Value := do
  if !pat.isIrrefutable then locating pat.span (problem (.refutable "for"))
  let backend ← cx.loopLabel label
  let c ← cx.counter pat iter
  let (_, ls) ← inLoop ⟨label.map Ident.name, backend⟩ (inBlock do
    cx.bindPattern pat c.element
    discard cx.target (← cx.block body))
  line (.loop backend c.var c.start c.stop ls)
  voidValue

end Lowering
end Ember
