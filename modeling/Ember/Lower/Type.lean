import Ember.Lower.Basic

/-!
# Types as they are written
-/
set_option autoImplicit false

namespace Ember

open Emit

namespace Lowering

def arrayLength (cx : Lowering) (len : Expr) : Emit Nat := do
  let (v, ls) ← inBlock (cx.expr len)
  locating len.span do
    match knownIndex? v, ls with
    | some n, [] =>
      if 0 < n then return n.toInt.toNat else problem (.arrayLengthNotPositive n.toInt)
    | _, _ =>
      if v.ty != .i32 then problem (.arrayLengthType v.ty.name) else problem .arrayLengthUnknown

def namedTy (name : String) : Emit Ty := do
  match (← look (·.frame.typeParams)).lookup name with
  | some ty => return ty
  | none =>
    match (← look (·.program.env)).type? name with
    | some ty => return ty
    | none => problem (.unknownType name)

def memberStructs (ty : Ty) (span : Span) : Emit (List Struct) :=
  match ty with
  | .struct s => pure [s]
  | .alt s ss => pure (s :: ss)
  | .scalar _ | .array _ _ => locating span (problem (.alternativeNotStruct ty.name))

mutual

def type (cx : Lowering) : TypeExpr → Emit Ty
  | ⟨.empty, span⟩ => locating span (defect .typePlaceholder)
  | ⟨.named name args, span⟩ => locating span
    (if args.isEmpty then namedTy name.name else problem (.typeTakesNoArguments name.name))
  | ⟨.array of len, span⟩ => locating span do
    let element ← type cx of
    liftM (Ty.mkArray element (← arrayLength cx len))
  | ⟨.alt members, span⟩ => locating span do
    liftM (Ty.mkAlt (← memberTypes cx members))

def memberTypes (cx : Lowering) : List TypeExpr → Emit (List Struct)
  | [] => pure []
  | ⟨kind, span⟩ :: ts => do
    let structs ← memberStructs (← type cx ⟨kind, span⟩) span
    return structs ++ (← memberTypes cx ts)

end

def types (cx : Lowering) (ts : List TypeExpr) : Emit (List Ty) := ts.mapM cx.type

end Lowering
end Ember
