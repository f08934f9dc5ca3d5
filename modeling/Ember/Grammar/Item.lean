import Ember.Grammar.Statement
import Ember.Text.Escape

/-!
# The items of a script
-/
set_option autoImplicit false

namespace Ember.Grammar

open Ember.Parser

def useItem : Parser ItemKind := do
  let _ ← next
  let kind ← match ← accept .str with
    | some t =>
      pure (.useModule (String.ofList (Escape.decode (Escape.body t.text.toList))) t.span)
    | none => do
      let _ ← missing .expectedModuleName
      pure .empty
  let _ ← expect .semi .expectedSemicolon
  return kind

def typedName (g : Grammar) (nameCode typeCode : IssueCode) : Parser (Ident × TypeExpr) := do
  let name ← ident nameCode
  let _ ← expect .colon .expectedColon
  return (name, ← g.type typeCode)

/-- A name, or a marked operator. -/
def fnName : Parser FnName := do
  match ← look Stream.kind? with
  | some (.marked op) =>
    let _ ← next
    return .operator op (← look Stream.last)
  | _ => return .ident (← ident .expectedFnName)

/-- `fn name<types>(params) -> type { .. }` -/
def fnItem (g : Grammar) : Parser FnDecl := do
  let _ ← next
  let name ← fnName
  let generics ← match ← acceptGroup .langle with
    | some group =>
      Prod.fst <$> commaList group (some .emptyGenericParams) false (ident .expectedGenericName)
    | none => pure []
  let params ← match ← acceptGroup .lparen with
    | some group =>
      Prod.fst <$> commaList group none false
        (typedName g .expectedParamName .expectedParamType)
    | none => do
      let _ ← missing .expectedParamList
      pure []
  let ret ← match ← accept (.op .arrow) with
    | some _ => some <$> g.type .expectedReturnType
    | none => pure none
  let body ← blockOr g .expectedFnBody
  return ⟨name, generics, params.map fun p => ⟨p.1, p.2⟩, ret, body⟩

def structVariant (g : Grammar) : Parser StructDecl := do
  let name ← ident .expectedStructName
  let fields ← match ← acceptGroup .lbrace with
    | some group =>
      Prod.fst <$> commaList group none false
        (typedName g .expectedFieldName .expectedFieldType)
    | none => do
      let _ ← missing .expectedStructBody
      pure []
  return ⟨name, fields.map fun f => ⟨f.1, f.2⟩, ← look (·.spanFrom name.span)⟩

/-- Variants between bars; each round reads a bar. -/
def structVariants (g : Grammar) : Nat → Parser (List StructDecl)
  | 0 => return []
  | rounds + 1 => do
    let variant ← structVariant g
    match ← accept (.op .pipe) with
    | none => return [variant]
    | some _ =>
      if ← look (·.atToken .ident) then return variant :: (← structVariants g rounds)
      let _ ← missing .expectedVariant
      return [variant]

/-- `struct A { .. } | B { .. };` or `matrix M { .. };` -/
def structItem (g : Grammar) : Parser StructGroup := do
  let matrix := (← next).map Node.kind == some (.keyword .kwMatrix)
  let variants ← structVariants g ((← look (·.rest.length)) + 1)
  let _ ← accept .semi
  return ⟨matrix, variants⟩

def constItem (g : Grammar) : Parser ItemKind := do
  let _ ← next
  let name ← ident .expectedConstName
  let ty ← annotated g .expectedType
  let _ ← expect .assign .expectedEquals
  let value ← exprOr (g.expr true) .expectedExpression
  let _ ← expect .semi .expectedSemicolon
  return .const name ty value

/-- `$name`; a name without the sign is taken for one and reported. -/
def paramName : Parser Ident := do
  match ← acceptAny fun k => k == .param || k == .ident with
  | some t =>
    if t.kind = .param then identOf t 1
    else
      raise .expectedParamDecl t.span
      identOf t 0
  | none => return ⟨"", ← missing .expectedParamDecl⟩

def paramItem (g : Grammar) : Parser ItemKind := do
  let _ ← next
  let name ← paramName
  let _ ← expect .colon .expectedColon
  let ty ← g.type .expectedType
  let _ ← expect .semi .expectedSemicolon
  return .param name ty

/-- One item. What starts none is reported and skipped up to the next item. -/
def item (g : Grammar) : Parser ItemKind := do
  match ← look Stream.kind? with
  | some (.keyword .kwUse) => useItem
  | some (.keyword .kwFn) => .fn <$> fnItem g
  | some (.keyword .kwStruct) | some (.keyword .kwMatrix) => .structs <$> structItem g
  | some (.keyword .kwConst) => constItem g
  | some (.keyword .kwParam) => paramItem g
  | some (.keyword .kwAssert) => .assert <$> assertion g
  | _ =>
    let start ← look Stream.here
    let n ← next
    raise .expectedItem ((n.map Node.span).getD start)
    skipUntil startsItem
    return .empty

/-- Items up to the end; each round reads at least one node. -/
def scriptItems (g : Grammar) : Nat → Parser (List Item)
  | 0 => return []
  | rounds + 1 => do
    if ← look Stream.atEnd then return []
    let start ← look Stream.here
    let kind ← item g
    let first : Item := ⟨kind, ← look (·.spanFrom start)⟩
    return first :: (← scriptItems g rounds)

end Ember.Grammar
