import Ember.Lower.Expr
import Ember.Prelude

/-!
# Items

Struct groups, constants, parameters from outside, assertions and functions.

Each is declared once, and written for every target asked for.
-/
set_option autoImplicit false

namespace Ember

open Emit

namespace Item

def fields (cx : Lowering) : List String → List FieldDecl → Emit (List Field)
  | _, [] => pure []
  | seen, f :: fs => do
    if seen.contains f.name.name then
      locating f.name.span (problem (.fieldDeclaredTwice f.name.name))
    let ty ← cx.type f.ty
    return ⟨f.name.name, ty⟩ :: (← fields cx (f.name.name :: seen) fs)

def variants (cx : Lowering) : List StructDecl → Emit (List Variant)
  | [] => pure []
  | d :: ds => do
    if ((← look (·.program.env.own.types)).lookup d.name.name).isSome then
      locating d.name.span (problem (.typeDeclaredTwice d.name.name))
    let v : Variant := ⟨d.name.name, ← fields cx [] d.fields⟩
    return v :: (← variants cx ds)

def addStruct (s : Struct) : Emit Unit :=
  modifyProgram fun p => p.modifyScope fun scope =>
    (scope.addType s.name (.struct s)).addFn s.name (.constructor s)

/-- The structs of a group share a layout, so GLSL declares one for all. -/
def structGroup (group : StructGroup) : Emit Unit := do
  let vs ← variants (.toTarget .js) group.variants
  let structs ← numbering (Struct.declareGroup vs group.matrix)
  structs.forM addStruct
  match structs with
  | first :: _ => Lowering.declareSlots first
  | [] => pure ()

def const (name : Ident) (ty : Option TypeExpr) (value : Expr) : Emit Unit := do
  let cx := Lowering.toTarget .js
  let (v, ls) ← inBlock (cx.expr value)
  let v ← match ty with
    | some ty => do expect .js v (← cx.type ty) value.span
    | none => pure v
  if !v.isConst || !ls.isEmpty then locating value.span (problem .constUnknown)
  modifyProgram fun p => p.modifyScope (·.addConst name.name v)

def param (name : Ident) (ty : TypeExpr) : Emit Unit := do
  let ty ← (Lowering.toTarget .glsl).type ty
  if ty.isVoid then problem (.paramVoid name.name)
  modifyProgram fun p => (p.modifyOutput .glsl fun o =>
    { o with uniforms := o.uniforms ++ [⟨name.name, ty.storage .glsl⟩] }).modifyScope
      (·.addParam name.name ty)

def assert (cond : Expr) (target : Target) : Emit Unit := do
  let (_, ls) ← inBlock ((Lowering.toTarget target).assert cond)
  if target == .js then
    modifyProgram fun p => p.modifyOutput .js fun o => { o with main := o.main ++ ls }

def sourceOf? (e : Expr) : Option SourceBlock :=
  match e.kind with
  | .source b => some b
  | _ => none

/-- A body's foreign text, and whether there is anything else in it. -/
def sourceParts (body : Block) : List SourceBlock × Bool :=
  let parts : List (Option SourceBlock) := body.stmts.filterMap (fun s =>
      match s.kind with
      | .expr e => some (sourceOf? e)
      | .empty => none
      | _ => some none) ++ body.tail.toList.map sourceOf?
  (parts.filterMap id, parts.any Option.isNone)

/-- A body's foreign text, if it is written so; then nothing else may be in it. -/
def sourceBlocks (body : Block) : Emit (Option (List SourceBlock)) :=
  match sourceParts body with
  | ([], _) => pure none
  | (blocks, false) => pure (some blocks)
  | (_, true) => locating body.span (problem .mixedSource)

/-- The name of a function's overloads, and the name by which it is shown. -/
def fnNames : FnName → String × String
  | .ident name => (name.name, name.name)
  | .operator op _ => (op.overloads, op.spelling)

/-- What a declared function takes and gives; a template takes anything. -/
def declaredParams (f : UserFn) : Emit (List Param × ParamTy) := do
  let names := f.decl.params.map (·.name.name)
  if f.decl.generics.isEmpty then
    let (params, ret) ← f.signature (.toTarget .js) []
    return ((names.zip params).map fun (n, ty) => ⟨n, .exact ty⟩, .exact ret)
  else return (names.map fun n => ⟨n, .any⟩, .any)

def fn (decl : FnDecl) (targets : List Target) : Emit Unit := do
  let (key, display) := fnNames decl.name
  let generic := !decl.generics.isEmpty
  let backend ← if generic then pure none else do pure (some (← fresh key))
  let source ← sourceBlocks decl.body
  let id ← look (·.program.env.own.functions.length)
  let f : UserFn := ⟨id, decl, key, backend, source⟩
  let (params, result) ← declaredParams f
  let function : Function := ⟨display, params, result, .user f, decl.generics.length⟩
  modifyProgram fun p => p.modifyScope (·.addFn key function)
  if !generic then
    targets.forM fun target => do
      let _ ← f.instantiate (.toTarget target) []

def lower (item : Item) (targets : List Target) : Emit Unit :=
  locating item.span (match item.kind with
    | .empty => defect .itemPlaceholder
    | .useModule _ _ => defect .useUnresolved
    | .structs group => structGroup group
    | .const name ty value => const name ty value
    | .param name ty => param name ty
    | .assert cond => targets.forM (assert cond)
    | .fn decl => fn decl targets)

end Item

/-- A program after lowering, however it ended. -/
def Program.run {α : Type} (p : Program) (act : Emit α) : Except Failure α × Program :=
  match act { program := p } with
  | .ok a s => (.ok a, s.program)
  | .error f s => (.error f, s.program)

def Program.item (p : Program) (item : Item) (targets : List Target) :
    Except Failure Unit × Program :=
  p.run (item.lower targets)

end Ember
