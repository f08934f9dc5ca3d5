import Ember.Ids
import Ember.Line
import Ember.Scope

/-!
# Programs

What a compilation gathers: numbers given out, declarations, and the code of both targets.
-/
set_option autoImplicit false

namespace Ember

/-- The types of the prelude that lowering asks for by shape. -/
structure Builtins where
  void : Ty
  vectors : List ((ScalarKind × Nat) × Ty) := []
  matrices : List (Nat × Ty) := []
  deriving Inhabited

namespace Builtins

/-- The type of `width` components; one component is the scalar. -/
def vector (b : Builtins) (kind : ScalarKind) (width : Nat) : Except Failure Ty :=
  if width = 1 then .ok (.scalar kind)
  else match b.vectors.lookup (kind, width) with
    | some ty => .ok ty
    | none => .error (.problem (.noVector width kind.name))

def matrix? (b : Builtins) (size : Nat) : Option Ty := b.matrices.lookup size

end Builtins

structure Instance where
  backend : String
  params : List Ty
  ret : Ty

structure InstanceKey where
  fn : Nat
  target : Target
  types : List Ty

def InstanceKey.same (a b : InstanceKey) : Bool :=
  a.fn == b.fn && a.target == b.target && a.types == b.types

structure Program where
  ids : Ids
  env : Environment
  builtins : Builtins
  js : Output := {}
  glsl : Output := {}
  instances : List (InstanceKey × Instance) := []
  deriving Inhabited

namespace Program

def output (p : Program) : Target → Output
  | .js => p.js
  | .glsl => p.glsl

def modifyOutput (p : Program) (target : Target) (f : Output → Output) : Program :=
  match target with
  | .js => { p with js := f p.js }
  | .glsl => { p with glsl := f p.glsl }

def modifyScope (p : Program) (f : Scope → Scope) : Program :=
  { p with env := { p.env with own := f p.env.own } }

def instance? (p : Program) (key : InstanceKey) : Option Instance :=
  (p.instances.find? (·.1.same key)).map (·.2)

def signatures (p : Program) : List String :=
  p.env.own.functions.map fun f => f.2.signature

end Program
end Ember
