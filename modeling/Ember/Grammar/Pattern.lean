import Ember.Grammar.Literal

/-!
# Patterns of `let`, `for` and `match`
-/
set_option autoImplicit false

namespace Ember.Grammar

open Ember.Parser

/-- `field` or `field: pattern`; the former binds the field's own name. -/
def fieldPat (g : Grammar) : Parser FieldPat := do
  let field ← ident .expectedFieldName
  match ← accept .colon with
  | some _ => return ⟨field, ← g.pat .expectedPattern⟩
  | none => return ⟨field, ⟨.bind field.name false, field.span⟩⟩

def namedPat (g : Grammar) (t : Token) : Parser Pat := do
  let name ← identOf t 0
  match ← acceptGroup .lbrace with
  | none => return ⟨.bind name.name false, t.span⟩
  | some group =>
    let (fields, rest) ← commaList group none true (fieldPat g)
    return ⟨.struct name fields rest, ← look (·.spanFrom t.span)⟩

def negativePat (t : Token) : Parser Pat := do
  match ← acceptAny fun k => k == .int || k == .hex || k == .float with
  | some number =>
    let value ← literal number true
    return ⟨.lit value, ← look (·.spanFrom t.span)⟩
  | none =>
    let _ ← missing .expectedLiteralAfterMinus
    return ⟨.ignore, t.span⟩

def patAtom (g : Grammar) : Parser Pat := do
  let here ← look Stream.here
  match ← acceptGroup .lbracket with
  | some group =>
    let (items, rest) ← commaList group none true (g.pat .expectedPattern)
    return ⟨.array items rest, group.span⟩
  | none =>
    match ← next with
    | some (.token t) =>
      match t.kind with
      | .underscore => return ⟨.ignore, t.span⟩
      | .keyword .kwMut =>
        let name ← ident .expectedIdent
        return ⟨.bind name.name true, ← look (·.spanFrom t.span)⟩
      | .ident => namedPat g t
      | .op .minus => negativePat t
      | _ => return ⟨.lit (← literal t false), t.span⟩
    | _ =>
      raise .expectedPattern here
      return ⟨.ignore, here⟩

def patRule (g : Grammar) (code : IssueCode) : Parser Pat := do
  if ← look (·.atAny startsPat) then patAtom g else return ⟨.ignore, ← missing code⟩

end Ember.Grammar
