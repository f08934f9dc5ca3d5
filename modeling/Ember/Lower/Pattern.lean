import Ember.Lower.Call

/-!
# Patterns

Whether a value matches, and what its parts are called then.
-/
set_option autoImplicit false

namespace Ember

open Emit

namespace Lowering

def literal : Lit → Value
  | .int v => .int v
  | .float v => .float v.toFloat32
  | .bool v => .bool v

def patternStruct (name : Ident) (ty : Ty) : Emit Struct := do
  let found := (← look (·.program.env)).type? name.name
  locating name.span (match found with
    | some (.struct s) =>
      if Ty.struct s == ty then pure s else problem (.patternType s.name ty.name)
    | some other => problem (.notStruct other.name)
    | none => problem (.unknownType name.name))

def patternField (s : Struct) (field : Ident) : Emit Nat :=
  match s.fieldIndex? field.name with
  | some i => pure i
  | none => locating field.span (problem (.noField s.name field.name))

/-- A pattern without `..` names all fields, and no others. -/
def checkFields (s : Struct) (names : List String) : Emit Unit :=
  match s.fields.find? fun f => !names.contains f.name with
  | some f => problem (.fieldNotMentioned f.name)
  | none =>
    match names.find? fun n => (s.fieldIndex? n).isNone with
    | some n => problem (.noField s.name n)
    | none => pure ()

def checkArrayPattern (ty : Ty) (count : Nat) (rest : Bool) : Emit Unit :=
  match ty.array? with
  | none => problem (.arrayPatternType ty.name)
  | some (_, len) =>
    if count > len || (!rest && count != len) then problem (.arrayPatternLength count ty.name)
    else pure ()

def elementAt (cx : Lowering) (v : Value) (i : Nat) : Emit Value :=
  index cx.target v (.int (Int32.ofNat i))

/-- Binds a name. What may change, or would be computed anew, is kept in a variable of its own. -/
def bindLocal (cx : Lowering) (name : String) (mutable : Bool) (v : Value) : Emit Unit := do
  if v.ty.isVoid then bindName name (.const v.ty.zero v.ty)
  else if !mutable && (v.isConst || (v.isSimple cx.target && !v.assignable)) then bindName name v
  else
    let backend ← fresh name
    let init ← if mutable || v.assignable then liftM (ownedCode cx.target v)
      else liftM (v.toCode cx.target)
    declareVar backend v.ty (some init) mutable
    bindName name ⟨.code (.name backend), v.ty, mutable⟩

mutual

def bindPattern (cx : Lowering) : Pat → Value → Emit Unit
  | ⟨.ignore, _⟩, v => discard cx.target v
  | ⟨.lit _, _⟩, _ => pure ()
  | ⟨.bind name mutable, _⟩, v => cx.bindLocal name mutable v
  | ⟨.struct name fields rest, span⟩, v => do
    let s ← patternStruct name v.ty
    if !rest then locating span (checkFields s (fields.map fun f => f.name.name))
    bindFields cx s fields (← cache cx.target v)
  | ⟨.array items rest, _⟩, v => do
    checkArrayPattern v.ty items.length rest
    bindItems cx 0 items (← cache cx.target v)

def bindFields (cx : Lowering) (s : Struct) : List FieldPat → Value → Emit Unit
  | [], _ => pure ()
  | ⟨name, pat⟩ :: fs, v => do
    let part ← v.field cx.target (← patternField s name)
    bindPattern cx pat part
    bindFields cx s fs v

def bindItems (cx : Lowering) (i : Nat) : List Pat → Value → Emit Unit
  | [], _ => pure ()
  | p :: ps, v => do
    let part ← cx.elementAt v i
    bindPattern cx p part
    bindItems cx (i + 1) ps v

end

/-- Whether two conditions hold; what is known already is not written. -/
def both (cx : Lowering) (a b : Value) (span : Span) : Emit Value :=
  match a.truth?, b.truth? with
  | some true, _ => pure b
  | _, some true => pure a
  | some false, _ => pure a
  | _, some false => pure b
  | none, none => cx.operator "_and" "&&" [a, b] span

mutual

def testPattern (cx : Lowering) : Pat → Value → Emit Value
  | ⟨.ignore, _⟩, _ | ⟨.bind _ _, _⟩, _ => pure (.bool true)
  | ⟨.lit l, span⟩, v => cx.operator "_eq" "==" [v, literal l] span
  | ⟨.struct name fields _, span⟩, v => do
    testFields cx span (← patternStruct name v.ty) (.bool true) fields v
  | ⟨.array items rest, span⟩, v => do
    checkArrayPattern v.ty items.length rest
    testItems cx span 0 (.bool true) items v

def testFields (cx : Lowering) (span : Span) (s : Struct) (all : Value) :
    List FieldPat → Value → Emit Value
  | [], _ => pure all
  | ⟨name, pat⟩ :: fs, v => do
    let part ← v.field cx.target (← patternField s name)
    let all ← cx.both all (← testPattern cx pat part) span
    testFields cx span s all fs v

def testItems (cx : Lowering) (span : Span) (i : Nat) (all : Value) :
    List Pat → Value → Emit Value
  | [], _ => pure all
  | p :: ps, v => do
    let part ← cx.elementAt v i
    let all ← cx.both all (← testPattern cx p part) span
    testItems cx span (i + 1) all ps v

end

end Lowering
end Ember
