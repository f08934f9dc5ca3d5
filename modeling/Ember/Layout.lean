import Ember.Failure
import Ember.Storage
import Ember.Target

/-!
# How the fields of a struct are kept on a target

Fields that keep nothing take no room. A struct with no other field keeps nothing, one with a single
other field is that field. In GLSL a matrix has a column for each field, and fields that are
vectors of one kind with at most four components in all become one vector. Any other struct has
numbered slots.
-/
set_option autoImplicit false

namespace Ember

inductive LayoutPath where
  | void | transparent | vectorMerge | matrix | struct
  deriving DecidableEq, Inhabited

def LayoutPath.name : LayoutPath → String
  | .void => "Void"
  | .transparent => "Transparent"
  | .vectorMerge => "VectorMerge"
  | .matrix => "Matrix"
  | .struct => "Struct"

inductive Accessor where
  /-- The field keeps nothing: its value is the zero of its type. -/
  | zero
  /-- The struct is the field. -/
  | identity
  | swizzle (letters : String)
  | column (index : Nat)
  | slot (index : Nat)
  deriving DecidableEq, Inhabited

inductive Builder where
  | unit
  /-- The only value kept is the struct. -/
  | forward
  | call (name : String)
  /-- An array literal. -/
  | record
  deriving DecidableEq, Inhabited

/-- There is an accessor for every field. Slots are listed for the path `struct` only. -/
structure Layout where
  path : LayoutPath
  storage : Storage
  accessors : List Accessor
  builder : Builder
  slots : List Storage := []
  deriving DecidableEq, Inhabited

structure SlotStruct where
  id : Nat
  slots : List Storage
  deriving DecidableEq, Inhabited

def SlotStruct.text (s : SlotStruct) : String :=
  "struct " ++ Storage.structName s.id ++ " \x7b\n" ++
    String.join (s.slots.mapIdx fun i slot => s!"  {slot.glslName} _{i};\n") ++ "\x7d;"

namespace Layout

/-- Gives accessors, in order, to the fields that are kept. -/
def place : List Storage → List Accessor → List Accessor
  | [], _ => []
  | f :: fs, as =>
    if f.isVoid then .zero :: place fs as
    else match as with
      | [] => .zero :: place fs []
      | a :: rest => a :: place fs rest

def letters (offset width : Nat) : String :=
  String.ofList ((['x', 'y', 'z', 'w'].drop offset).take width)

/-- The parts of a vector that hold fields of these widths, one after the other. -/
def swizzles : Nat → List Nat → List Accessor
  | _, [] => []
  | offset, w :: ws => .swizzle (letters offset w) :: swizzles (offset + w) ws

def widths? (kind : ScalarKind) : List Storage → Option (List Nat)
  | [] => some []
  | s :: ss =>
    match s.vector? with
    | some (k, w) => if k = kind then (widths? kind ss).map (w :: ·) else none
    | none => none

def merge? (fields stored : List Storage) : Option Layout :=
  match stored.head?.bind Storage.vector? with
  | none => none
  | some (kind, _) =>
    match widths? kind stored with
    | none => none
    | some widths =>
      let width := widths.foldr (· + ·) 0
      if 2 ≤ width ∧ width ≤ 4 then
        let storage := Storage.vector kind width
        some { path := .vectorMerge, storage, accessors := place fields (swizzles 0 widths),
               builder := .call storage.glslName }
      else none

/-- The height of columns that are float vectors of one width. `rows` is that of the columns before
column `col`. -/
def rows? : Nat → Option Nat → List Storage → Except Failure (Option Nat)
  | _, rows, [] => .ok rows
  | col, rows, s :: ss =>
    match s.vector? with
    | some (.float, w) =>
      if 2 ≤ w ∧ w ≤ 4 ∧ rows.all (· == w) then rows? (col + 1) (some w) ss
      else .error (.defect (.matrixColumn col))
    | _ => .error (.defect (.matrixColumn col))

def ofColumns (fields stored : List Storage) : Except Failure Layout := do
  let cols := stored.length
  match ← rows? 0 none stored with
  | some rows =>
    if 2 ≤ cols ∧ cols ≤ 4 then
      let storage := Storage.matrix cols rows
      pure { path := .matrix, storage
             accessors := place fields ((List.range cols).map .column)
             builder := .call storage.glslName }
    else .error (.defect (.matrixColumns (min cols 255)))
  | none => .error (.defect (.matrixColumns (min cols 255)))

def ofSlots (fields stored : List Storage) (target : Target) (id : Nat) : Layout where
  path := .struct
  storage := .struct id
  accessors := place fields ((List.range stored.length).map .slot)
  builder := match target with
    | .glsl => .call (Storage.structName id)
    | .js => .record
  slots := stored

/-- The layout of a struct with these fields. `id` names it where it has slots. -/
def ofFields (fields : List Storage) (matrix : Bool) (target : Target) (id : Nat) :
    Except Failure Layout :=
  match fields.filter fun f => !f.isVoid with
  | [] => .ok { path := .void, storage := .void, accessors := place fields [], builder := .unit }
  | [only] =>
    .ok { path := .transparent, storage := only, accessors := place fields [.identity],
          builder := .forward }
  | stored =>
    if target.hasVectors then
      if matrix then ofColumns fields stored
      else .ok ((merge? fields stored).getD (ofSlots fields stored target id))
    else .ok (ofSlots fields stored target id)

/-- Whether two layouts keep the same things in the same places. -/
def isCompatible (a b : Layout) : Bool :=
  a.path == b.path && a.storage == b.storage && a.slots == b.slots

def declared? (l : Layout) : Option SlotStruct :=
  match l.path, l.storage with
  | .struct, .struct id => some ⟨id, l.slots⟩
  | _, _ => none

end Layout
end Ember
