import Ember.Emit.Value

/-!
# Operations on vectors

Constants are computed scalar by scalar. GLSL applies most operations to whole vectors; JavaScript
takes vectors apart, applies the operation to the scalars and puts the results together.
-/
set_option autoImplicit false

namespace Ember

def approxEpsilon : Float32 := (1e-6 : Float).toFloat32

namespace Emit

variable {α : Type}

def scalarOp (target : Target) (op : ScalarOp) (args : List Value) : Except Failure Value :=
  match args.head?.bind (·.ty.scalarKind?) with
  | none => .error (.defect (.noScalarOperands op.name))
  | some kind => do
    let result := Ty.scalar (op.resultKind kind)
    match Value.consts? args with
    | some cs => return .const (← op.fold cs) result
    | none => return .code (op.code target kind (← args.mapM (·.toCode target))) result

/-- The type of the operands that are no scalars, which they have to share. -/
def shapedTy : Option Ty → List Value → Except Failure (Option Ty)
  | found, [] => .ok found
  | found, v :: vs =>
    if v.ty.isScalar then shapedTy found vs
    else match found with
      | none => shapedTy (some v.ty) vs
      | some ty =>
        if ty == v.ty then shapedTy found vs
        else .error (.problem (.operandTypes ty.name v.ty.name))

def components (target : Target) : List Value → Emit (List (List Value))
  | [] => pure []
  | v :: vs => do
    let scalars ← scalars target (← cache target v)
    return scalars :: (← components target vs)

/-- A component of each operand; a scalar counts for every component. -/
def pick (parts : List (List Value)) (i : Nat) : Except Failure (List Value) :=
  parts.mapM fun
    | [v] => .ok v
    | vs => match vs[i]? with
      | some v => .ok v
      | none => .error (.defect .noComponents)

def isZero (v : Value) : Bool :=
  v.const?.any fun c => c.same (.scalar (.int 0))

/-- Refuses a whole number divided by a constant with a zero in it. -/
def checkDivisor (target : Target) (op : ScalarOp) (kind : ScalarKind) (args : List Value) :
    Emit Unit := do
  if op.divides && kind == .int then
    if let some divisor := args[1]? then
      if divisor.isConst then
        if (← scalars target divisor).any isZero then problem .divisionByZero

def wholeOperand (op : ScalarOp) (ty : Ty) (width : Nat) (v : Value) : Except Failure Code := do
  let c ← v.toCode .glsl
  return if width > 1 && v.ty.isScalar && !op.mixesScalars then .call ty.glslName [c] else c

def mapTo (target : Target) (op : ScalarOp) (kind : ScalarKind) (width : Nat) (inTy outTy : Ty)
    (args : List Value) : Emit Value := do
  checkDivisor target op kind args
  if target == .glsl && !args.all Value.isConst then
    let operands ← args.mapM fun v => liftM (wholeOperand op inTy width v)
    return .code (op.code .glsl kind operands) outTy
  else
    let parts ← components target args
    let results ← (List.range width).mapM fun i => do
      liftM (scalarOp target op (← pick parts i))
    Value.fromScalars target outTy results

def commonShape (shaped : Option Ty) (args : List Value) : Option (ScalarKind × Nat) :=
  match shaped with
  | some ty => ty.shape?
  | none => args.head?.bind (·.ty.shape?)

/-- An operation on vectors of one type, and scalars that count for every component. -/
def mapOp (target : Target) (op : ScalarOp) (args : List Value) : Emit Value := do
  let shaped ← shapedTy none args
  match commonShape shaped args with
  | none => defect (.noVectorOperands op.name)
  | some (kind, width) =>
    let inTy := shaped.getD (.scalar kind)
    let outKind := op.resultKind kind
    let outTy ← if outKind = kind then pure inTy else vectorTy outKind width
    mapTo target op kind width inTy outTy args

def compare (target : Target) (kind : ScalarKind) (a b : Value) : Except Failure Value := do
  match a.const?, b.const? with
  | some x, some y => return .bool (x.same y)
  | _, _ =>
    let op : CodeOp := if target == .js && kind != .bool then .strictEq else .eq
    return .code (.op op (← a.toCode target) (← b.toCode target)) .bool

def reduceTerm (target : Target) (r : Reduction) (kind : ScalarKind) (operands : List Value) :
    Except Failure Value :=
  match r, operands with
  | .eq, a :: b :: _ | .ne, a :: b :: _ => compare target kind a b
  | .approx, a :: b :: _ => do
    let difference ← scalarOp target .sub [a, b]
    let distance ← scalarOp target .abs [difference]
    scalarOp target .lt [distance, .float approxEpsilon]
  | .dot, a :: b :: _ => scalarOp target .mul [a, b]
  | .length, a :: _ => scalarOp target .mul [a, a]
  | _, _ => .error (.defect .noComponents)

def reduceJoin : Reduction → ScalarOp
  | .dot | .length => .add
  | .eq | .ne | .approx => .and

def reduceTerms (target : Target) (r : Reduction) (kind : ScalarKind) (parts : List (List Value)) :
    Option Value → List Nat → Except Failure (Option Value)
  | acc, [] => .ok acc
  | acc, i :: is => do
    let term ← reduceTerm target r kind (← pick parts i)
    let acc ← match acc with
      | none => pure term
      | some v => scalarOp target (reduceJoin r) [v, term]
    reduceTerms target r kind parts (some acc) is

def wholeReduction? (r : Reduction) (scalar : Bool) : List Code → Option Code
  | [a, b] =>
    match r with
    | .eq => some (.op .eq a b)
    | .ne => some (.op .ne a b)
    | .dot => some (if scalar then .op .mul a b else .call "dot" [a, b])
    | .approx | .length => none
  | [a] => if r = .length then some (.call "length" [a]) else none
  | _ => none

def checkSameTy : List Value → Except Failure Unit
  | [a, b] =>
    if a.ty == b.ty then .ok () else .error (.problem (.operandTypes a.ty.name b.ty.name))
  | _ => .ok ()

def reduceEnd (target : Target) (r : Reduction) (v : Value) : Except Failure Value :=
  match r with
  | .ne => scalarOp target .not [v]
  | .length => scalarOp target .sqrt [v]
  | .eq | .approx | .dot => .ok v

def reduceScalars (target : Target) (r : Reduction) (kind : ScalarKind) (args : List Value) :
    Emit Value := do
  let parts ← components target args
  let width := ((parts.map List.length).max?).getD 1
  match ← reduceTerms target r kind parts none (List.range width) with
  | some v => liftM (reduceEnd target r v)
  | none => defect .noComponents

def reduce (target : Target) (r : Reduction) (args : List Value) : Emit Value := do
  checkSameTy args
  match args.head?.bind (·.ty.shape?) with
  | none => defect (.noVectorOperands r.name)
  | some (kind, _) =>
    let whole ← if target == .glsl && !args.all Value.isConst then do
        let codes ← args.mapM fun v => liftM (v.toCode target)
        pure (wholeReduction? r (args.all (·.ty.isScalar)) codes)
      else pure none
    match whole with
    | some c => return .code c r.resultTy
    | none => reduceScalars target r kind args

def normalize (target : Target) (v : Value) : Emit Value := do
  if target == .glsl && !v.isConst then
    return .code (.call "normalize" [← v.toCode target]) v.ty
  let v ← cache target v
  let length ← cache target (← reduce target .length [v])
  mapOp target .div [v, length]

def columns (target : Target) (m : Value) (i : Nat) : List Field → Emit (List (List Value))
  | [] => pure []
  | f :: fs =>
    if f.ty.isVoid then columns target m (i + 1) fs
    else do
      let column ← scalars target (← m.field target i)
      return column :: (← columns target m (i + 1) fs)

def rowProduct (target : Target) (row : Nat) : Option Value → List (List Value) → List Value →
    Except Failure Value
  | acc, column :: cs, s :: ss => do
    match column[row]? with
    | none => .error (.defect .noColumns)
    | some v =>
      let term ← scalarOp target .mul [v, s]
      let sum ← match acc with
        | none => pure term
        | some w => scalarOp target .add [w, term]
      rowProduct target row (some sum) cs ss
  | some v, _, _ => .ok v
  | none, _, _ => .error (.defect .noColumns)

def multiplyScalars (target : Target) (s : Struct) (m v : Value) : Emit Value := do
  let m ← cache target m
  let v ← cache target v
  let scales ← scalars target v
  let columns ← columns target m 0 s.fields
  let rows := (columns.head?.map List.length).getD 0
  let results ← (List.range rows).mapM fun row => liftM (rowProduct target row none columns scales)
  Value.fromScalars target (← vectorTy .float rows) results

def matrixProduct (target : Target) (m v : Value) : Emit Value := do
  if target == .glsl && !(m.isConst && v.isConst) then
    return .code (.op .mul (← m.toCode target) (← v.toCode target)) v.ty
  match m.ty with
  | .struct s => multiplyScalars target s m v
  | _ => defect .matrixOperand

def count (v : Value) : Except Failure Value :=
  match v.ty.array?, v.ty.shape? with
  | some (_, len), _ => .ok (.int (Int32.ofNat (min len 2147483647)))
  | none, some (_, width) => .ok (.int (Int32.ofNat width))
  | none, none => .error (.problem (.notCountable v.ty.name))

/-- A scalar of another kind; a float loses its fraction. -/
def cast (target : Target) (source goal : ScalarKind) (v : Value) : Except Failure Value :=
  if source = goal then .ok v
  else match v.payload, goal with
    | .const (.scalar (.int n)), .float => .ok (.float n.toFloat32)
    | .const (.scalar (.float x)), .int => .ok (.int x.toInt32)
    | .code c, _ =>
      .ok (.code (match target, goal with
        | .glsl, _ => .call goal.glslName [c]
        | .js, .int => ScalarOp.wrapped c
        | .js, _ => c) (.scalar goal))
    | .const c, _ => .error (.defect (.cannotCast (c.shown ++ ": " ++ v.ty.name)))

end Emit
end Ember
