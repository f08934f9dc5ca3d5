import Ember.Emit.Value

/-!
# Parts of values

Fields by name, components by letters, and elements of arrays.
-/
set_option autoImplicit false

namespace Ember.Emit

def lettersIn (set : List Char) (text : List Char) : Option (List Nat) :=
  text.mapM fun c => set.findIdx? (· == c)

/-- The components that one to four letters name, all from one of the two sets. -/
def componentsOf? (text : List Char) : Option (List Nat) :=
  if text.isEmpty || text.length > 4 then none
  else lettersIn ['x', 'y', 'z', 'w'] text <|> lettersIn ['r', 'g', 'b', 'a'] text

def swizzleTo (target : Target) (base : Value) (indices : List Nat) (ty : Ty) : Emit Value := do
  let native := (base.ty.storage target).vector?.any (·.2 ≥ 2)
  if native && !base.isConst then
    let letters := indices.map fun i => ['x', 'y', 'z', 'w'].getD i 'x'
    return .code (.member (← base.toCode target) (String.ofList letters)) ty
  let scalars ← scalars target base
  let picked ← indices.mapM fun i =>
    match scalars[i]? with
    | some v => pure v
    | none => defect .swizzleIndex
  Value.fromScalars target ty picked

def swizzle (target : Target) (base : Value) (indices : List Nat) : Emit Value := do
  match base.ty.shape? with
  | none => defect .swizzleOfNonVector
  | some (kind, _) => swizzleTo target base indices (← vectorTy kind indices.length)

def fieldNamed (target : Target) (base : Value) (field : Ident) : Emit Value := do
  match base.ty.field? field.name with
  | some (i, _) => liftM (base.field target i)
  | none =>
    match componentsOf? field.name.toList, base.ty.shape? with
    | some indices, some (_, width) =>
      if indices.all (· < width) then swizzle target base indices
      else locating field.span (problem (.noField base.ty.name field.name))
    | _, _ => locating field.span (problem (.noField base.ty.name field.name))

def knownIndex? (v : Value) : Option Int32 := v.const?.bind fun c =>
  match c with
  | .scalar (.int n) => some n
  | _ => none

/-- An element of an array that is not known, or at a place that is not. -/
def elementCode (target : Target) (base i : Value) (of : Ty) : Emit Value := do
  let c ← cachedCode target base
  return ⟨.code (.index c (← i.toCode target)), of, base.assignable⟩

def index (target : Target) (base i : Value) : Emit Value := do
  match base.ty.array? with
  | none => problem (.notIndexable base.ty.name)
  | some (of, len) =>
    let i ← i.convert target .i32
    match knownIndex? i with
    | none => elementCode target base i of
    | some n =>
      if n < 0 || n.toInt ≥ len then problem (.outOfBounds n.toInt base.ty.name)
      else match base.const?.bind Constant.items? with
        | none => elementCode target base i of
        | some items =>
          match items[n.toInt.toNat]? with
          | some item => return .const item of
          | none => defect .shortArray

/-- A value wanted for its effects only. -/
def discard (target : Target) (v : Value) : Emit Unit :=
  match v.payload with
  | .const _ => pure ()
  | .code c => if v.isSimple target then pure () else line (.eval c)

end Ember.Emit
