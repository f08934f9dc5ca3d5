import Ember.Lower.Type
import Ember.Source
import Ember.Text.Blank

/-!
# Calls

A call of a declared function is computed if all arguments are known and the body comes to a
constant without writing anything; such computations nest up to a limit. Otherwise the call is
written, and the function too, at its first call for a target and for the types it is called with.
-/
set_option autoImplicit false

namespace Ember

open Emit

def constDepthLimit : Nat := 64

namespace UserFn

/-- The body of a function, before its parameters are bound. -/
def activation (f : UserFn) (typeArgs : List Ty) : Activation where
  typeParams := ((f.decl.generics.map Ident.name).zip typeArgs).reverse

def signature (f : UserFn) (cx : Lowering) (typeArgs : List Ty) : Emit (List Ty × Ty) :=
  inFrame (f.activation typeArgs) do
    let params ← cx.types (f.decl.params.map FnParam.ty)
    let ret ← match f.decl.ret with
      | some ty => cx.type ty
      | none => voidTy
    return (params, ret)

/-- Binds parameters to new names; those without a value need none. -/
def bindParams : List FnParam → List Ty → Emit (List (String × Storage))
  | p :: ps, ty :: tys => do
    if ty.isVoid then
      bindName p.name.name (.const ty.zero ty)
      bindParams ps tys
    else
      let backend ← fresh p.name.name
      bindName p.name.name (.code (.name backend) ty)
      return (backend, ty.storage .glsl) :: (← bindParams ps tys)
  | _, _ => return []

/-- The block of foreign text for a target: its own, or else one for all. -/
def sourceFor? (target : Target) (blocks : List SourceBlock) : Option SourceBlock :=
  blocks.find? (fun b => b.target.any (·.name == target.name)) <|>
    blocks.find? (fun b => b.target.isNone)

def sourceText (cx : Lowering) : List SourcePart → Emit String
  | [] => return ""
  | .text t :: parts => return t ++ (← sourceText cx parts)
  | .interp e :: parts => do
    let v ← cx.expr e
    let v ← locating e.span (liftM (v.nonVoid "interpolated expression"))
    let c ← v.toCode cx.target
    return c.text cx.target ++ (← sourceText cx parts)

def stripReturn (cs : List Char) : List Char :=
  if cs.getLast? = some '\r' then cs.dropLast else cs

def foreignLines (text : String) : List Line :=
  match Text.trim text.toList with
  | [] => []
  | cs => (newlinePieces cs).map fun l => .foreign (String.ofList (stripReturn l))

def sourceBody (cx : Lowering) (blocks : List SourceBlock) : Emit (List Line) := do
  match sourceFor? cx.target blocks with
  | none => problem (.noSource cx.target.name)
  | some b => return foreignLines (← sourceText cx b.parts)

def locatingTail {α : Type} (body : Block) (act : Emit α) : Emit α :=
  match body.tail with
  | some tail => locating tail.span act
  | none => act

def ordinaryBody (f : UserFn) (cx : Lowering) (ret : Ty) : Emit (List Line) := do
  let v ← cx.block f.decl.body
  let v ← locatingTail f.decl.body (liftM (v.convert cx.target ret))
  if ret.isVoid then
    discard cx.target v
    return []
  return [.give (← v.toCode cx.target)]

def emit (f : UserFn) (cx : Lowering) (inst : Instance) (typeArgs : List Ty) : Emit FnCode :=
  inFrame (f.activation typeArgs) do
    let params ← bindParams f.decl.params inst.params
    let (last, ls) ← inBlock (match f.source with
      | some blocks => sourceBody cx blocks
      | none => f.ordinaryBody cx inst.ret)
    return ⟨inst.backend, params, inst.ret.storage .glsl, ls ++ last⟩

/-- The function as written for the target, which it is now if it was not before. -/
def instantiate (f : UserFn) (cx : Lowering) (typeArgs : List Ty) : Emit Instance := do
  let key : InstanceKey := ⟨f.id, cx.target, typeArgs⟩
  match (← look (·.program)).instance? key with
  | some inst => return inst
  | none =>
    let (params, ret) ← f.signature cx typeArgs
    let backend ← match f.backend, typeArgs with
      | some name, [] => pure name
      | _, _ => fresh f.stem
    let inst : Instance := ⟨backend, params, ret⟩
    modifyProgram fun p => { p with instances := (key, inst) :: p.instances }
    let code ← f.emit cx inst typeArgs
    modifyProgram fun p => p.modifyOutput cx.target fun o =>
      { o with functions := o.functions ++ [code] }
    return inst

def bindArgs : List FnParam → List Value → Emit Unit
  | p :: ps, v :: vs => do
    bindName p.name.name v
    bindArgs ps vs
  | _, _ => return ()

def compute (f : UserFn) (cx : Lowering) (inst : Instance) (args : List Value)
    (typeArgs : List Ty) : Emit (Option Value) := do
  let (v, ls) ← computing (inFrame (f.activation typeArgs) (inBlock do
    bindArgs f.decl.params args
    let v ← cx.block f.decl.body
    liftM (v.convert cx.target inst.ret)))
  return if ls.isEmpty && v.isConst then some v else none

def convertArgs (cx : Lowering) (span : Span) : List Value → List Ty → Emit (List Value)
  | v :: vs, ty :: tys => do
    let v ← expect cx.target v ty span
    return v :: (← convertArgs cx span vs tys)
  | _, _ => return []

def argCodes (target : Target) : List Value → List Ty → Except Failure (List Code)
  | v :: vs, ty :: tys =>
    if ty.isVoid then argCodes target vs tys
    else do return (← v.toCode target) :: (← argCodes target vs tys)
  | _, _ => .ok []

def writeCall (cx : Lowering) (inst : Instance) (args : List Value) : Emit Value := do
  let c : Code := .call inst.backend (← argCodes cx.target args inst.params)
  if inst.ret.isVoid then
    line (.eval c)
    return .const inst.ret.zero inst.ret
  return .code c inst.ret

def answer (f : UserFn) (cx : Lowering) (inst : Instance) (args : List Value) (typeArgs : List Ty)
    (span : Span) : Emit Value := do
  let args ← convertArgs cx span args inst.params
  let depth ← look (·.constDepth)
  let known ← if f.source.isNone && args.all Value.isConst && depth < constDepthLimit then
      f.compute cx inst args typeArgs
    else pure none
  match known with
  | some v => return v
  | none => writeCall cx inst args

def call (f : UserFn) (cx : Lowering) (args : List Value) (typeArgs : List Ty) (span : Span) :
    Emit Value := do
  f.answer cx (← f.instantiate cx typeArgs) args typeArgs span

end UserFn

def Behaviour.run (cx : Lowering) (b : Behaviour) (args : List Value) (typeArgs : List Ty)
    (span : Span) : Emit Value :=
  match b, args with
  | .construct s, _ => liftM (Value.construct cx.target s args)
  | .splat ty, [v] => do
    let v ← cache cx.target v
    let width := (ty.shape?.map (·.2)).getD 0
    liftM (Value.fromScalars cx.target ty (List.replicate width v))
  | .matrixProduct, [m, v] => Emit.matrixProduct cx.target m v
  | .map op, _ => mapOp cx.target op args
  | .reduce r, _ => Emit.reduce cx.target r args
  | .count, [v] => liftM (Emit.count v)
  | .normalize, [v] => Emit.normalize cx.target v
  | .cast source goal, [v] => liftM (Emit.cast cx.target source goal v)
  | .user f, _ => cx.user f args typeArgs span
  | .splat _, _ => defect (.arity "splat")
  | .matrixProduct, _ => defect (.arity "matrix product")
  | .count, _ => defect (.arity "count")
  | .normalize, _ => defect (.arity "normalize")
  | .cast _ _, _ => defect (.arity "cast")

namespace Lowering

def argument (cx : Lowering) (v : Value) : ParamTy → Except Failure Value
  | .exact ty => v.convert cx.target ty
  | .vector kind =>
    if v.ty.shape?.any (·.1 == kind) then .ok v else v.convert cx.target (.scalar kind)
  | .any => .ok v

def arguments (cx : Lowering) : List Value → List Param → Except Failure (List Value)
  | v :: vs, p :: ps => do return (← cx.argument v p.ty) :: (← arguments cx vs ps)
  | _, _ => .ok []

def checkGenerics (display : String) (f : Function) (typeArgs : List Ty) : Except Failure Unit :=
  if f.generics = typeArgs.length then .ok ()
  else if f.generics = 0 then .error (.problem (.noTypeArguments display))
  else .error (.problem (.typeArgumentCount display f.generics typeArgs.length))

def dispatch (cx : Lowering) (display : String) (candidates : List Candidate) (args : List Value)
    (typeArgs : List Ty) (span : Span) : Emit Value := do
  let f ← resolve display candidates (args.map Value.ty)
  checkGenerics display f typeArgs
  f.behaviour.run cx (← cx.arguments args f.params) typeArgs span

def call (cx : Lowering) (name : String) (args : List Value) (typeArgs : List Ty) (span : Span) :
    Emit Value := do
  cx.dispatch name ((← look (·.program.env)).candidates name) args typeArgs span

def callBuiltin (cx : Lowering) (name : String) (args : List Value) (typeArgs : List Ty)
    (span : Span) : Emit Value := do
  cx.dispatch ("@" ++ name) ((← look (·.program.env)).builtins name) args typeArgs span

/-- Applies an operator; `key` is the name of its overloads. -/
def operator (cx : Lowering) (key symbol : String) (args : List Value) (span : Span) :
    Emit Value := do
  cx.dispatch symbol ((← look (·.program.env)).candidates key) args [] span

end Lowering
end Ember
