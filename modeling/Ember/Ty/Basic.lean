import Ember.Constant
import Ember.Layout

/-!
# Types of the language

A struct is the same as another only if both come from one declaration, which `uid` tells. Structs
declared in one group share their layouts, so that a value of any of them can be a value of an
alternative over them.
-/
set_option autoImplicit false

namespace Ember

mutual

inductive Ty where
  | scalar (kind : ScalarKind)
  | struct (s : Struct)
  | array (of : Ty) (len : Nat)
  /-- One of several structs of a group, in the order of their declaration. -/
  | alt (first : Struct) (others : List Struct)

/-- `group` is shared by all structs that were declared together. -/
structure Struct where
  uid : Nat
  group : Nat
  name : String
  fields : List Field
  matrix : Bool
  js : Layout
  glsl : Layout

structure Field where
  name : String
  ty : Ty

end

instance : Inhabited Ty := ⟨.scalar .float⟩

namespace Struct

def layout (s : Struct) : Target → Layout
  | .js => s.js
  | .glsl => s.glsl

def isVoid (s : Struct) : Bool := s.js.path == .void

def fieldIndex? (s : Struct) (name : String) : Option Nat := s.fields.findIdx? (·.name == name)

end Struct

namespace Ty

def f32 : Ty := .scalar .float
def i32 : Ty := .scalar .int
def bool : Ty := .scalar .bool

def name : Ty → String
  | .scalar k => k.name
  | .struct s => s.name
  | .array of len => "[" ++ of.name ++ "; " ++ toString len ++ "]"
  | .alt first others => String.intercalate " | " (first.name :: others.map Struct.name)

/-- Sameness of types: by declaration for structs. -/
def same : Ty → Ty → Bool
  | .scalar a, .scalar b => a == b
  | .struct s, .struct t => s.uid == t.uid
  | .array a m, .array b n => m == n && a.same b
  | .alt s ss, .alt t ts => (s :: ss).map Struct.uid == (t :: ts).map Struct.uid
  | _, _ => false

instance : BEq Ty := ⟨same⟩

def storage (target : Target) : Ty → Storage
  | .scalar k => .scalar k
  | .struct s => (s.layout target).storage
  | .array of len => .array (of.storage target) len
  | .alt first _ => (first.layout target).storage

def glslName (t : Ty) : String := (t.storage .glsl).glslName

def isVoid : Ty → Bool
  | .struct s | .alt s _ => s.isVoid
  | .scalar _ | .array _ _ => false

def scalarKind? : Ty → Option ScalarKind
  | .scalar k => some k
  | _ => none

def isScalar (t : Ty) : Bool := t.scalarKind?.isSome

def array? : Ty → Option (Ty × Nat)
  | .array of len => some (of, len)
  | _ => none

/-- The struct whose layout a value has. -/
def struct? : Ty → Option Struct
  | .struct s | .alt s _ => some s
  | .scalar _ | .array _ _ => none

def joinShapes : Option (Option ScalarKind × Nat) → Option (ScalarKind × Nat) →
    Option (Option ScalarKind × Nat)
  | some (kind, width), some (k, w) =>
    if kind.all (· == k) then some (some k, width + w) else none
  | _, _ => none

end Ty

mutual

/-- The kind and the number of components of what is one to four scalars of one kind: a scalar, or
a struct, not a matrix, whose fields are such. -/
def Ty.shape? : Ty → Option (ScalarKind × Nat)
  | .scalar k => some (k, 1)
  | .struct s => s.shape?
  | .array _ _ | .alt _ _ => none

def Struct.shape? : Struct → Option (ScalarKind × Nat)
  | ⟨_, _, _, fields, matrix, _, _⟩ =>
    if matrix then none
    else match Ty.fieldsShape (some (none, 0)) fields with
      | some (some k, w) => if 1 ≤ w ∧ w ≤ 4 then some (k, w) else none
      | _ => none

def Ty.fieldsShape (acc : Option (Option ScalarKind × Nat)) :
    List Field → Option (Option ScalarKind × Nat)
  | [] => acc
  | ⟨_, ty⟩ :: fs =>
    if ty.isVoid then Ty.fieldsShape acc fs
    else Ty.fieldsShape (Ty.joinShapes acc ty.shape?) fs

end

mutual

/-- The zero of a type; of an alternative, that of its first struct. -/
def Ty.zero : Ty → Constant
  | .scalar k => .scalar (Scalar.zero k)
  | .struct s | .alt s _ => s.zero
  | .array of len => .aggregate (List.replicate len of.zero)

def Struct.zero : Struct → Constant
  | ⟨_, _, _, fields, _, _, _⟩ => .aggregate (Field.zeros fields)

def Field.zeros : List Field → List Constant
  | [] => []
  | ⟨_, ty⟩ :: fs => ty.zero :: Field.zeros fs

end

namespace Ty

/-- The place and the type of a field that can be read from every value of a type. In an
alternative all structs have to keep it in the same place. -/
def field? (t : Ty) (name : String) : Option (Nat × Ty) :=
  match t with
  | .struct s => do
    let i ← s.fieldIndex? name
    let f ← s.fields[i]?
    pure (i, f.ty)
  | .alt first others => do
    let i ← first.fieldIndex? name
    let f ← first.fields[i]?
    let shared (s : Struct) : Bool :=
      (s.fields[i]?.any fun g => g.name == name && g.ty == f.ty) &&
        Target.all.all fun t => (s.layout t).accessors[i]? == (first.layout t).accessors[i]?
    if others.all shared then pure (i, f.ty) else none
  | .scalar _ | .array _ _ => none

def accepts (goal other : Ty) : Bool :=
  goal == other || match goal, other with
    | .scalar .float, .scalar .int => true
    | .alt t ts, .struct s => ((t :: ts).map Struct.uid).contains s.uid
    | .alt t ts, .alt s ss =>
      (s :: ss).all fun m => ((t :: ts).map Struct.uid).contains m.uid
    | _, _ => false

end Ty
end Ember
