import Ember.Emit.Basic

/-!
# Values as code

Constants written out, conversions, fields, and the scalars of a vector.
-/
set_option autoImplicit false

namespace Ember

namespace Code

def assemble (target : Target) (s : Struct) (stored : List Code) : Except Failure Code :=
  match (s.layout target).builder with
  | .unit => .error (.defect (.voidText s.name))
  | .forward =>
    match stored with
    | c :: _ => .ok c
    | [] => .error (.defect .transparentEmpty)
  | .call fn => .ok (.call fn stored)
  | .record => .ok (.list stored)

def arrayOf (target : Target) (ty : Ty) (items : List Code) : Code :=
  match target with
  | .glsl => .call ty.glslName items
  | .js => .list items

def items (c : Constant) (ty : Ty) : Except Failure (List Constant) :=
  match c with
  | .aggregate items => .ok items
  | .scalar _ => .error (.defect (.scalarTyped ty.name))

mutual

def ofConst (target : Target) : Ty → Constant → Except Failure Code
  | .scalar k, c =>
    match c with
    | .scalar s => .ok (.lit s)
    | .aggregate _ => .error (.defect (.aggregateTyped k.name))
  | .struct s, c => ofStruct target s c
  | .array of len, c => do
    let texts ← (← items c (.array of len)).mapM fun i => ofConst target of i
    return arrayOf target (.array of len) texts
  | .alt _ _, _ => .error (.defect .alternativeConstant)

def ofStruct (target : Target) : Struct → Constant → Except Failure Code
  | ⟨uid, group, n, fields, matrix, js, glsl⟩, c => do
    let s : Struct := ⟨uid, group, n, fields, matrix, js, glsl⟩
    let stored ← ofFields target fields (s.layout target).accessors (← items c (.struct s))
    assemble target s stored

def ofFields (target : Target) : List Field → List Accessor → List Constant →
    Except Failure (List Code)
  | [], _, _ => .ok []
  | _ :: _, [], _ => .ok []
  | ⟨_, ty⟩ :: fs, a :: as, cs =>
    if a = .zero then ofFields target fs as cs.tail
    else match cs with
      | [] => .error (.defect .shortStruct)
      | c :: rest => do return (← ofConst target ty c) :: (← ofFields target fs as rest)

end

def project (target : Target) (base : Code) : Accessor → Code
  | .zero | .identity => base
  | .swizzle letters => .member base letters
  | .column i => .slot base i
  | .slot i =>
    match target with
    | .glsl => .member base ("_" ++ toString i)
    | .js => .slot base i

end Code

namespace Value

def toCode (target : Target) (v : Value) : Except Failure Code :=
  match v.payload with
  | .code c => .ok c
  | .const c => Code.ofConst target v.ty c

def convert (target : Target) (v : Value) (goal : Ty) : Except Failure Value :=
  if v.ty == goal then .ok v
  else if !goal.accepts v.ty then .error (.problem (.mismatch goal.name v.ty.name))
  else match goal, v.payload with
    | .scalar .float, .const (.scalar (.int n)) => .ok (.float n.toFloat32)
    | .scalar .float, .code c =>
      .ok (.code (match target with
        | .glsl => .call "float" [c]
        | .js => c) .f32)
    | .alt _ _, _ => do return .code (← v.toCode target) goal
    | _, _ => .error (.defect (.noConversion v.ty.name goal.name))

def nonVoid (v : Value) (what : String) : Except Failure Value :=
  if v.ty.isVoid then .error (.problem (.noValue what v.ty.name)) else .ok v

/-- A field of a struct, or of any struct of an alternative. -/
def field (target : Target) (base : Value) (index : Nat) : Except Failure Value :=
  match base.ty.struct? with
  | none => .error (.defect (.fieldOfNonStruct base.ty.name))
  | some s =>
    match s.fields[index]? with
    | none => .error (.defect .fieldIndex)
    | some f =>
      match base.payload with
      | .const c => do
        match (← Code.items c base.ty)[index]? with
        | some item => return .const item f.ty
        | none => .error (.defect .shortStruct)
      | .code c =>
        match (s.layout target).accessors.getD index .zero with
        | .zero => .ok (.const f.ty.zero f.ty)
        | a => .ok ⟨.code (Code.project target c a), f.ty, base.assignable⟩

def construct (target : Target) (s : Struct) (fields : List Value) : Except Failure Value :=
  match consts? fields with
  | some cs => .ok (.const (.aggregate cs) (.struct s))
  | none => do
    let kept := (fields.zip (s.layout target).accessors).filter fun p => p.2 != .zero
    let stored ← kept.mapM fun p => p.1.toCode target
    return .code (← Code.assemble target s stored) (.struct s)

end Value

namespace Emit

/-- A value that can be repeated: code that computes something is kept in a variable. -/
def cache (target : Target) (v : Value) : Emit Value := do
  if v.isSimple target || v.ty.isVoid then return v
  let c ← v.toCode target
  let name ← temp
  declareVar name v.ty (some c) false
  return .code (.name name) v.ty

def cachedCode (target : Target) (v : Value) : Emit Code := do
  if v.const?.any (!·.isScalar) then
    let c ← v.toCode target
    let name ← temp
    declareVar name v.ty (some c) false
    return .name name
  else liftM ((← cache target v).toCode target)

/-- Code of a value that shares nothing. JavaScript shares what has parts, so that is copied unless
it is being built. -/
def ownedCode (target : Target) (v : Value) : Except Failure Code := do
  let c ← v.toCode target
  let shared := target == .js && !v.ty.isScalar && (v.ty.storage .js).isComposite &&
    v.code?.isSome && (c.text target).toList.head? != some '['
  return if shared then .call "structuredClone" [c] else c

def expect (target : Target) (v : Value) (goal : Ty) (span : Span) : Emit Value :=
  locating span (liftM (v.convert target goal))

mutual

def scalarsAt (target : Target) : Ty → Value → Emit (List Value)
  | .scalar _, v => pure [v]
  | .struct s, v =>
    if (Ty.struct s).shape?.isSome then structScalars target s v
    else defect (.notDecomposable (Ty.struct s).name)
  | .array of len, _ => defect (.notDecomposable (Ty.array of len).name)
  | .alt first others, _ => defect (.notDecomposable (Ty.alt first others).name)

def structScalars (target : Target) : Struct → Value → Emit (List Value)
  | ⟨_, _, _, fields, _, _, _⟩, v => do fieldScalars target 0 fields (← cache target v)

def fieldScalars (target : Target) (i : Nat) : List Field → Value → Emit (List Value)
  | [], _ => pure []
  | ⟨_, ty⟩ :: fs, v =>
    if ty.isVoid then fieldScalars target (i + 1) fs v
    else do
      let component ← v.field target i
      let scalars ← scalarsAt target ty component
      return scalars ++ (← fieldScalars target (i + 1) fs v)

end

def scalars (target : Target) (v : Value) : Emit (List Value) := scalarsAt target v.ty v

end Emit

namespace Value

mutual

/-- A value of a type from the first of some scalars, and the scalars left. -/
def ofScalars (target : Target) : Ty → List Value → Except Failure (Value × List Value)
  | .scalar k, vs =>
    match vs with
    | v :: rest => .ok (v, rest)
    | [] => .error (.defect (.scalarsExhausted k.name))
  | .struct s, vs => structOfScalars target s vs
  | .array of len, _ => .error (.defect (.notComposable (Ty.array of len).name))
  | .alt first others, _ => .error (.defect (.notComposable (Ty.alt first others).name))

def structOfScalars (target : Target) : Struct → List Value → Except Failure (Value × List Value)
  | ⟨uid, group, name, fields, matrix, js, glsl⟩, vs => do
    let (values, rest) ← fieldsOfScalars target fields vs
    return (← construct target ⟨uid, group, name, fields, matrix, js, glsl⟩ values, rest)

def fieldsOfScalars (target : Target) : List Field → List Value →
    Except Failure (List Value × List Value)
  | [], vs => .ok ([], vs)
  | ⟨_, ty⟩ :: fs, vs =>
    if ty.isVoid then do
      let (values, rest) ← fieldsOfScalars target fs vs
      return (.const ty.zero ty :: values, rest)
    else do
      let (value, rest) ← ofScalars target ty vs
      let (values, rest) ← fieldsOfScalars target fs rest
      return (value :: values, rest)

end

def fromScalars (target : Target) (ty : Ty) (vs : List Value) : Except Failure Value :=
  (ofScalars target ty vs).map (·.1)

end Value
end Ember
