import Ember.Grammar.Basic

/-!
# Type expressions

Names, arrays and alternatives.
-/
set_option autoImplicit false

namespace Ember.Grammar

open Ember.Parser

/-- `[of; len]`, inside its brackets. -/
def arrayType (g : Grammar) : Parser (TypeExpr × Expr) := do
  let of ← g.type .expectedType
  let len ← match ← accept .semi with
    | some _ => exprOr (g.expr true) .expectedArrayLength
    | none => pure (Expr.missing (← missing .expectedArrayLength))
  finish
  return (of, len)

def typeArgs (g : Grammar) (group : Group) : Parser (List TypeExpr) :=
  Prod.fst <$> commaList group (some .emptyTypeArgs) false (g.type .expectedType)

def typeAtom (g : Grammar) : Parser TypeExpr := do
  match ← acceptGroup .lbracket with
  | some group =>
    let (of, len) ← inside group (arrayType g)
    return ⟨.array of len, group.span⟩
  | none =>
    let name ← ident .expectedType
    let args ← match ← acceptGroup .langle with
      | some group => typeArgs g group
      | none => pure []
    return ⟨.named name args, ← look (·.spanFrom name.span)⟩

def typeAtomOr (g : Grammar) (code : IssueCode) : Parser TypeExpr := do
  if ← look (·.atAny startsType) then typeAtom g else return ⟨.empty, ← missing code⟩

def alternatives (g : Grammar) : Nat → Parser (List TypeExpr)
  | 0 => return []
  | rounds + 1 => do
    match ← accept (.op .pipe) with
    | some _ => return (← typeAtomOr g .expectedType) :: (← alternatives g rounds)
    | none => return []

def typeRule (g : Grammar) (code : IssueCode) : Parser TypeExpr := do
  if ← look (·.atAny startsType) then
    let first ← typeAtom g
    match ← alternatives g (← look (·.rest.length)) with
    | [] => return first
    | others => return ⟨.alt (first :: others), ← look (·.spanFrom first.span)⟩
  else return ⟨.empty, ← missing code⟩

end Ember.Grammar
