import Ember.Code
import Ember.Ty.Basic

/-!
# Values

What an expression is lowered to: a constant, or code that computes it.
-/
set_option autoImplicit false

namespace Ember

inductive Payload where
  | const (c : Constant)
  | code (c : Code)
  deriving Inhabited

structure Value where
  payload : Payload
  ty : Ty
  /-- Whether the code names a place that can be assigned to. -/
  assignable : Bool := false
  deriving Inhabited

namespace Value

def const (c : Constant) (ty : Ty) : Value := ⟨.const c, ty, false⟩
def code (c : Code) (ty : Ty) : Value := ⟨.code c, ty, false⟩
def int (v : Int32) : Value := .const (.scalar (.int v)) .i32
def float (v : Float32) : Value := .const (.scalar (.float v)) .f32
def bool (v : Bool) : Value := .const (.scalar (.bool v)) .bool

def const? (v : Value) : Option Constant :=
  match v.payload with
  | .const c => some c
  | .code _ => none

def code? (v : Value) : Option Code :=
  match v.payload with
  | .const _ => none
  | .code c => some c

def isConst (v : Value) : Bool := v.const?.isSome

def truth? (v : Value) : Option Bool := v.const?.bind fun c =>
  match c with
  | .scalar (.bool b) => some b
  | _ => none

/-- Whether a value can be repeated without computing anything twice. -/
def isSimple (target : Target) (v : Value) : Bool :=
  match v.payload with
  | .const _ => true
  | .code c => isSimpleText (c.text target).toList

def consts? (vs : List Value) : Option (List Constant) := vs.mapM Value.const?

end Value
end Ember
