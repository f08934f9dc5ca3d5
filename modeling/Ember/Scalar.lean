/-!
# Scalars

The kinds of them, and their values.
-/
set_option autoImplicit false

namespace Ember

inductive ScalarKind where
  | float | int | bool
  deriving DecidableEq, Inhabited

namespace ScalarKind

def all : List ScalarKind := [.float, .int, .bool]

def name : ScalarKind → String
  | .float => "f32"
  | .int => "i32"
  | .bool => "bool"

def ofName? (s : String) : Option ScalarKind := all.find? (·.name == s)

def glslName : ScalarKind → String
  | .float => "float"
  | .int => "int"
  | .bool => "bool"

def vectorMark : ScalarKind → String
  | .float => ""
  | .int => "i"
  | .bool => "b"

def vectorName (k : ScalarKind) (width : Nat) : String :=
  if width = 1 then k.name else k.vectorMark ++ "vec" ++ toString width

end ScalarKind

/-- Single precision, 32 bits that wrap, or a truth value. -/
inductive Scalar where
  | float (v : Float32)
  | int (v : Int32)
  | bool (v : Bool)
  deriving Inhabited

namespace Scalar

def kind : Scalar → ScalarKind
  | .float _ => .float
  | .int _ => .int
  | .bool _ => .bool

def zero : ScalarKind → Scalar
  | .float => .float 0
  | .int => .int 0
  | .bool => .bool false

/-- Equality as programs see it: the two zeros are equal, and no NaN equals anything. -/
def same : Scalar → Scalar → Bool
  | .float a, .float b => a == b
  | .int a, .int b => a == b
  | .bool a, .bool b => a == b
  | _, _ => false

end Scalar
end Ember
