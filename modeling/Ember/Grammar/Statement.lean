import Ember.Grammar.Primary

/-!
# Statements and blocks
-/
set_option autoImplicit false

namespace Ember.Grammar

open Ember.Parser

def annotated (g : Grammar) (code : IssueCode) : Parser (Option TypeExpr) := do
  match ← accept .colon with
  | some _ => return some (← g.type code)
  | none => return none

def letStmt (g : Grammar) : Parser StmtKind := do
  let _ ← next
  let pat ← g.pat .expectedLetPattern
  let ty ← annotated g .expectedType
  let _ ← expect .assign .expectedEquals
  let value ← exprOr (g.expr true) .expectedExpression
  let _ ← expect .semi .expectedSemicolon
  return .letBind pat ty value

def assertion (g : Grammar) : Parser Expr := do
  let _ ← next
  let cond ← exprOr (g.expr true) .expectedAssertCondition
  let _ ← expect .semi .expectedSemicolon
  return cond

def jump (kind : Option Ident → StmtKind) : Parser StmtKind := do
  let _ ← next
  let label ← match ← accept .label with
    | some t => some <$> identOf t 1
    | none => pure none
  let _ ← expect .semi .expectedSemicolon
  return kind label

/-- The rest of a statement that starts with an expression. The expression is the value of the block
if nothing follows it. -/
def exprStmt (g : Grammar) (target : Expr) : Parser (StmtKind ⊕ Expr) := do
  if let some op ← look fun s => s.kind?.bind AssignOp.ofToken? then
    let _ ← next
    let value ← exprOr (g.expr true) .expectedAssignValue
    let _ ← expect .semi .expectedSemicolon
    return .inl (.assign op target value)
  if let some _ ← accept .semi then return .inl (.expr target)
  if ← look Stream.atEnd then return .inr target
  if !target.isBlockLike then
    let _ ← missing .expectedSemicolon
  return .inl (.expr target)

def statement (g : Grammar) : Parser (StmtKind ⊕ Expr) := do
  match ← look Stream.kind? with
  | some .semi =>
    let _ ← next
    return .inl .empty
  | some (.keyword .kwLet) => .inl <$> letStmt g
  | some (.keyword .kwAssert) => (fun e => .inl (.assert e)) <$> assertion g
  | some (.keyword .kwBreak) => .inl <$> jump .breakLoop
  | some (.keyword .kwContinue) => .inl <$> jump .continueLoop
  | _ =>
    if ← look atExpr then exprStmt g (← g.expr true)
    else
      let start ← look Stream.here
      let n ← next
      raise .expectedExpression ((n.map Node.span).getD start)
      return .inl .empty

/-- Statements up to the end, and the value after them; each round reads at least one node. -/
def statements (g : Grammar) : Nat → Parser (List Stmt × Option Expr)
  | 0 => return ([], none)
  | rounds + 1 => do
    if ← look Stream.atEnd then return ([], none)
    let start ← look Stream.here
    match ← statement g with
    | .inr tail => return ([], some tail)
    | .inl kind =>
      let stmt : Stmt := ⟨kind, ← look (·.spanFrom start)⟩
      let (stmts, tail) ← statements g rounds
      return (stmt :: stmts, tail)

def blockRule (g : Grammar) (group : Group) : Parser Block := do
  let (stmts, tail) ← inside group (statements g group.contents.length)
  return ⟨stmts, tail, group.span⟩

end Ember.Grammar
