import Ember.Ids
import Ember.Ty.Basic

/-!
# How types come about

Struct groups, arrays and alternatives.
-/
set_option autoImplicit false

namespace Ember

/-- What can fail while numbers are given out; those given before a failure stay given. -/
abbrev Numbering := EStateM Failure Ids

def Numbering.next : Numbering Nat := modifyGet Ids.number

structure Variant where
  name : String
  fields : List Field

namespace Struct

/-- Whether columns are float vectors of one width; `rows` is that of the columns before. -/
def checkColumns (name : String) (rows : Option Nat) : List Field → Except Failure Unit
  | [] => .ok ()
  | f :: fs =>
    match f.ty.shape? with
    | some (.float, w) =>
      if 2 ≤ w ∧ w ≤ 4 ∧ rows.all (· == w) then checkColumns name (some w) fs
      else .error (.problem (.matrixColumnType name f.ty.name))
    | _ => .error (.problem (.matrixColumnType name f.ty.name))

def checkMatrix (v : Variant) : Except Failure Unit :=
  let columns := v.fields.filter fun f => !f.ty.isVoid
  if 2 ≤ columns.length ∧ columns.length ≤ 4 then checkColumns v.name none columns
  else .error (.problem (.matrixColumnCount v.name columns.length))

def layoutOf (fields : List Field) (matrix : Bool) (group : Nat) (target : Target) :
    Except Failure Layout :=
  Layout.ofFields (fields.map fun f => f.ty.storage target) matrix target group

def layoutsOf (v : Variant) (matrix : Bool) (group : Nat) : Except Failure (Layout × Layout) := do
  if matrix then checkMatrix v
  let js ← layoutOf v.fields matrix group .js
  let glsl ← layoutOf v.fields matrix group .glsl
  pure (js, glsl)

def checkShared (first : Struct) (name : String) (layout : Layout) (target : Target) :
    Except Failure Unit :=
  let expected := first.layout target
  if expected.isCompatible layout then .ok ()
  else .error (.problem (.layoutsDiffer first.name expected.path.name expected.storage.glslName
    name layout.path.name layout.storage.glslName target.name))

def declareAfter (matrix : Bool) (group : Nat) : Option Struct → List Variant →
    Numbering (List Struct)
  | _, [] => pure []
  | first, v :: vs => do
    let (js, glsl) ← layoutsOf v matrix group
    if let some f := first then
      checkShared f v.name js .js
      checkShared f v.name glsl .glsl
    let s : Struct := ⟨← Numbering.next, group, v.name, v.fields, matrix, js, glsl⟩
    return s :: (← declareAfter matrix group (first.getD s) vs)

def declareGroup (variants : List Variant) (matrix : Bool) : Numbering (List Struct) := do
  declareAfter matrix (← Numbering.next) none variants

def declare (v : Variant) (matrix : Bool) : Numbering Struct := do
  match ← declareGroup [v] matrix with
  | s :: _ => pure s
  | [] => throw (.defect .noVariant)

/-- Puts a struct in its place by number, once. -/
def insertMember (s : Struct) : List Struct → List Struct
  | [] => [s]
  | t :: ts =>
    if s.uid < t.uid then s :: t :: ts
    else if s.uid = t.uid then t :: ts
    else t :: insertMember s ts

end Struct

namespace Ty

def mkArray (of : Ty) (len : Nat) : Except Failure Ty :=
  if of.isVoid then .error (.problem (.voidElement of.name))
  else if len = 0 then .error (.problem .arrayOfNone)
  else .ok (.array of len)

/-- An alternative over structs of one group; over a single struct it is that struct. -/
def mkAlt (members : List Struct) : Except Failure Ty :=
  match members.foldr Struct.insertMember [] with
  | [] => .error (.defect .noAlternatives)
  | first :: others =>
    match others.find? (·.group != first.group) with
    | some stray => .error (.problem (.strayAlternative first.name stray.name))
    | none => .ok (if others.isEmpty then .struct first else .alt first others)

end Ty
end Ember
