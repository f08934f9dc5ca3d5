/-!
# The languages that are written
-/
set_option autoImplicit false

namespace Ember

/-- JavaScript, or the shader language GLSL ES 3.00. -/
inductive Target where
  | js | glsl
  deriving DecidableEq, Inhabited

namespace Target

def all : List Target := [.js, .glsl]

def name : Target → String
  | .js => "js"
  | .glsl => "glsl"

def ofName? (s : String) : Option Target := all.find? (·.name == s)

/-- Whether vectors and matrices are values of the language itself. -/
def hasVectors (t : Target) : Bool := t == .glsl

end Target
end Ember
