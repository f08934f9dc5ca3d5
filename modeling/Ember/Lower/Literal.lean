import Ember.Lower.Pattern

/-!
# Symbols, struct literals and array literals
-/
set_option autoImplicit false

namespace Ember

open Emit

namespace Lowering

def symbolTy (name : String) : Emit Ty := do
  match (← look (·.program.env)).symbol? name with
  | some ty => return ty
  | none =>
    let ty := Ty.struct (← numbering (Struct.declare ⟨":" ++ name, []⟩ false))
    modifyProgram fun p => p.modifyScope (·.addSymbol name ty)
    return ty

def declareSlots (s : Struct) : Emit Unit :=
  match s.glsl.declared? with
  | some d => modifyProgram fun p => p.modifyOutput .glsl fun o => { o with structs := o.structs ++ [d] }
  | none => pure ()

def anonName (symbol : String) (fields : List Field) : String :=
  ":" ++ symbol ++ " \x7b " ++
    String.intercalate ", " (fields.map fun f => f.name ++ ": " ++ f.ty.name) ++ " \x7d"

/-- The struct of a literal known by a symbol: one for each symbol, names and types. -/
def anonStruct (symbol : String) (values : List (Ident × Value)) : Emit Struct := do
  let fields : List Field := values.map fun (n, v) => ⟨n.name, v.ty⟩
  let key : AnonKey := ⟨symbol, fields.map Field.name, fields.map Field.ty⟩
  match (← look (·.program.env)).anon? key with
  | some s => return s
  | none =>
    let s ← numbering (Struct.declare ⟨anonName symbol fields, fields⟩ false)
    declareSlots s
    modifyProgram fun p => p.modifyScope (·.addAnon key s)
    return s

def headStruct (head : StructHead) (values : List (Ident × Value)) : Emit Struct :=
  match head with
  | .symbol name => anonStruct name.name values
  | .named name => do
    let found := (← look (·.program.env)).type? name.name
    locating name.span (match found with
      | some (.struct s) => pure s
      | some other => problem (.notStruct other.name)
      | none => problem (.unknownType name.name))

def initValues (cx : Lowering) : List Ident → List FieldInit → Emit (List (Ident × Value))
  | _, [] => pure []
  | seen, ⟨name, e⟩ :: inits => do
    if seen.any (·.name == name.name) then locating name.span (problem (.fieldSetTwice name.name))
    let v ← cx.expr e
    return (name, v) :: (← initValues cx (name :: seen) inits)

def placeValues (cx : Lowering) (s : Struct) : List (Ident × Value) → Emit (List (Nat × Value))
  | [] => pure []
  | (name, v) :: rest => do
    let i ← patternField s name
    let v ← match s.fields[i]? with
      | some f => expect cx.target v f.ty name.span
      | none => defect .fieldIndex
    return (i, v) :: (← placeValues cx s rest)

/-- All fields; those without a value need not be set. -/
def completeFields (s : Struct) (placed : List (Nat × Value)) (i : Nat) :
    List Field → Except Failure (List Value)
  | [] => .ok []
  | f :: fs =>
    match placed.lookup i with
    | some v => do return v :: (← completeFields s placed (i + 1) fs)
    | none =>
      if f.ty.isVoid then do
        return .const f.ty.zero f.ty :: (← completeFields s placed (i + 1) fs)
      else .error (.problem (.missingField f.name s.name))

def structLit (cx : Lowering) (head : StructHead) (inits : List FieldInit) : Emit Value := do
  let values ← cx.initValues [] inits
  let s ← headStruct head values
  let placed ← cx.placeValues s values
  liftM (Value.construct cx.target s (← completeFields s placed 0 s.fields))

def elements (cx : Lowering) : List Expr → Emit (List Value)
  | [] => pure []
  | e :: es => do
    let v ← cx.expr e
    let v ← locating e.span (liftM (v.nonVoid "array element"))
    return v :: (← elements cx es)

/-- The type that accepts the elements, looked for from the left. -/
def elementTy : Ty → List Value → Except Failure Ty
  | of, [] => .ok of
  | of, v :: vs =>
    if of.accepts v.ty then elementTy of vs
    else if v.ty.accepts of then elementTy v.ty vs
    else .error (.problem (.elementTypes of.name v.ty.name))

def arrayLit (cx : Lowering) (items : List Expr) : Emit Value := do
  match ← cx.elements items with
  | [] => problem .emptyArray
  | first :: rest =>
    let values := first :: rest
    let of ← elementTy first.ty rest
    let ty ← Ty.mkArray of values.length
    let converted ← values.mapM fun v => liftM (v.convert cx.target of)
    match Value.consts? converted with
    | some cs => return .const (.aggregate cs) ty
    | none =>
      let codes ← converted.mapM fun v => liftM (v.toCode cx.target)
      return .code (Code.arrayOf cx.target ty codes) ty

end Lowering
end Ember
