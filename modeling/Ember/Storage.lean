import Ember.Scalar

/-!
# Storage

What a value is made of on a target.
-/
set_option autoImplicit false

namespace Ember

inductive Storage where
  /-- Nothing is kept. -/
  | void
  /-- A scalar has width 1. -/
  | vector (kind : ScalarKind) (width : Nat)
  | matrix (cols rows : Nat)
  /-- Slots in order: a declared struct in GLSL, an array in JavaScript. -/
  | struct (id : Nat)
  | array (of : Storage) (len : Nat)
  deriving DecidableEq, Inhabited

namespace Storage

def scalar (k : ScalarKind) : Storage := .vector k 1

def isVoid (r : Storage) : Bool := r == .void

def vector? : Storage → Option (ScalarKind × Nat)
  | .vector k w => some (k, w)
  | _ => none

/-- Whether a value has parts that can be assigned one by one. -/
def isComposite : Storage → Bool
  | .struct _ | .array _ _ => true
  | _ => false

def structName (id : Nat) : String := "_S" ++ toString id

def glslName : Storage → String
  | .void => "void"
  | .vector k w => if w = 1 then k.glslName else k.vectorMark ++ "vec" ++ toString w
  | .matrix c r => "mat" ++ toString c ++ (if c = r then "" else "x" ++ toString r)
  | .struct id => structName id
  | .array of len => of.glslName ++ "[" ++ toString len ++ "]"

end Storage
end Ember
