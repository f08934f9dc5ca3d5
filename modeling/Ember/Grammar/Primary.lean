import Ember.Grammar.Pattern
import Ember.Grammar.Type

/-!
# Expressions without operators

Names, literals, what stands in brackets, and the forms that begin with a keyword; then the calls,
fields and indices that may follow them.
-/
set_option autoImplicit false

namespace Ember.Grammar

open Ember.Parser

def callArgs (g : Grammar) (group : Group) : Parser (List Expr) :=
  Prod.fst <$> commaList group none false (exprOr (g.expr true) .expectedExpression)

def enclosed (g : Grammar) (group : Group) (code : IssueCode) : Parser Expr :=
  inside group do
    let e ← exprOr (g.expr true) code
    finish
    return e

/-- `(e)`, `[a, b]` or a block. Parentheses leave only their span behind. -/
def groupExpr (g : Grammar) (group : Group) : Parser Expr := do
  match group.opener.kind with
  | .lparen => return { ← enclosed g group .expectedExpression with span := group.span }
  | .lbracket => return ⟨.array (← callArgs g group), group.span⟩
  | .lbrace => return ⟨.block (← g.block group), group.span⟩
  | _ =>
    raise .expectedExpression group.span
    return Expr.missing group.span

/-- `name: value`, or a name that is its own value. -/
def fieldInit (g : Grammar) : Parser FieldInit := do
  let name ← ident .expectedStructField
  match ← accept .colon with
  | some _ => return ⟨name, ← exprOr (g.expr true) .expectedFieldValue⟩
  | none => return ⟨name, ⟨.ident name.name, name.span⟩⟩

/-- A struct literal if a brace follows and literals are allowed, and `plain` if not. -/
def structLit (g : Grammar) (structs : Bool) (head : StructHead) (start : Span) (plain : ExprKind) :
    Parser Expr := do
  if structs then
    match ← acceptGroup .lbrace with
    | some group =>
      let (fields, _) ← commaList group none false (fieldInit g)
      return ⟨.structLit head fields, ← look (·.spanFrom start)⟩
    | none => return ⟨plain, start⟩
  else return ⟨plain, start⟩

def blockOr (g : Grammar) (code : IssueCode) : Parser Block := do
  match ← acceptGroup .lbrace with
  | some group => g.block group
  | none => return ⟨[], none, ← missing code⟩

def elseBranch (g : Grammar) : Parser (Option Expr) := do
  match ← accept (.keyword .kwElse) with
  | none => return none
  | some _ =>
    if ← look (·.atToken (.keyword .kwIf)) then return some (← g.ifExpr)
    match ← acceptGroup .lbrace with
    | some group => return some ⟨.block (← g.block group), group.span⟩
    | none =>
      let _ ← missing .expectedElseBranch
      return none

def ifRule (g : Grammar) : Parser Expr := do
  let start ← expect (.keyword .kwIf) .unexpectedToken
  let cond ← exprOr (g.expr false) .expectedCondition
  let thenBlock ← blockOr g .expectedBlock
  let other ← elseBranch g
  return ⟨.ifElse cond thenBlock other, ← look (·.spanFrom start.span)⟩

def matchArm (g : Grammar) : Parser MatchArm := do
  let pat ← g.pat .expectedPattern
  let _ ← expect .fatArrow .expectedFatArrow
  let body ← exprOr (g.expr true) .expectedExpression
  return ⟨pat, body, pat.span.merge body.span⟩

def matchExpr (g : Grammar) : Parser Expr := do
  let start ← expect (.keyword .kwMatch) .unexpectedToken
  let subject ← exprOr (g.expr false) .expectedExpression
  let arms ← match ← acceptGroup .lbrace with
    | some group => Prod.fst <$> commaList group (some .emptyMatch) false (matchArm g)
    | none => do
      let _ ← missing .expectedMatchBody
      pure []
  return ⟨.matchArms subject arms, ← look (·.spanFrom start.span)⟩

/-- `'label for pattern in iterable { .. }` -/
def forExpr (g : Grammar) : Parser Expr := do
  let start ← look Stream.here
  let label ← match ← accept .label with
    | some t => some <$> identOf t 1
    | none => pure none
  match ← accept (.keyword .kwFor) with
  | none =>
    let _ ← missing .expectedForAfterLabel
    return Expr.missing (← look (·.spanFrom start))
  | some _ =>
    let pat ← g.pat .expectedPattern
    let _ ← expect (.keyword .kwIn) .expectedIn
    let iter ← exprOr (g.expr false) .expectedIterable
    let body ← blockOr g .expectedBlock
    return ⟨.forLoop label pat iter body, ← look (·.spanFrom start)⟩

/-- The parts of foreign text: the text itself, and the expressions put into it. Each round reads
one node. -/
def sourceParts (g : Grammar) : Nat → Parser (List SourcePart)
  | 0 => return []
  | rounds + 1 => do
    match ← next with
    | none => return []
    | some (.token t) =>
      if t.kind = .sourceText then return .text t.text :: (← sourceParts g rounds)
      raise .unexpectedToken t.span
      sourceParts g rounds
    | some (.group group) =>
      if group.opener.kind = .interpOpen then
        let e ← enclosed g group .expectedExpression
        return .interp e :: (← sourceParts g rounds)
      raise .unexpectedToken group.span
      sourceParts g rounds

def sourceExpr (g : Grammar) : Parser Expr := do
  let start ← expect (.keyword .kwSource) .unexpectedToken
  let target ← match ← accept .ident with
    | some t => some <$> identOf t 0
    | none => pure none
  let parts ← match ← acceptGroup .lbrace with
    | some group => inside group (sourceParts g group.contents.length)
    | none => do
      let _ ← missing .expectedSourceBody
      pure []
  return ⟨.source ⟨target, parts⟩, ← look (·.spanFrom start.span)⟩

def signedName (t : Token) (kind : String → ExprKind) : Parser Expr := do
  let _ ← next
  let name ← identOf t 1
  return ⟨kind name.name, t.span⟩

def tokenExpr (g : Grammar) (structs : Bool) (t : Token) : Parser Expr := do
  match t.kind with
  | .ident =>
    let _ ← next
    let name ← identOf t 0
    structLit g structs (.named name) t.span (.ident name.name)
  | .symbol =>
    let _ ← next
    let name ← identOf t 1
    structLit g structs (.symbol name) t.span (.symbol name.name)
  | .builtin => signedName t .builtin
  | .param => signedName t .param
  | .keyword .kwIf => ifRule g
  | .keyword .kwMatch => matchExpr g
  | .keyword .kwFor | .label => forExpr g
  | .keyword .kwSource => sourceExpr g
  | kind =>
    if isLiteral kind then
      let _ ← next
      return ⟨.lit (← literal t false), t.span⟩
    else if kind.isMarked then
      let _ ← next
      raise .markedOperatorOutsideFn t.span
      return Expr.missing t.span
    else if kind.isReserved then
      let _ ← next
      raise .reservedKeyword t.span
      let name ← identOf t 0
      return ⟨.ident name.name, t.span⟩
    else return Expr.missing (← missing .expectedExpression)

def primary (g : Grammar) (structs : Bool) : Parser Expr := do
  match ← look Stream.peek? with
  | none => return Expr.missing (← missing .expectedExpression)
  | some (.group group) =>
    let _ ← next
    groupExpr g group
  | some (.token t) => tokenExpr g structs t

def member (g : Grammar) (base : Expr) : Parser Expr := do
  let field ← ident .expectedFieldAfterDot
  let kind ← match ← acceptGroup .lparen with
    | some group => ExprKind.methodCall base field <$> callArgs g group
    | none => pure (.field base field)
  return ⟨kind, ← look (·.spanFrom base.span)⟩

def typedCall (g : Grammar) (base : Expr) (angle : Group) : Parser Expr := do
  let types ← typeArgs g angle
  let args ← match ← acceptGroup .lparen with
    | some group => callArgs g group
    | none => do
      let _ ← missing .expectedCallArgs
      pure []
  return ⟨.call base types args, ← look (·.spanFrom base.span)⟩

def postfixStep (g : Grammar) (base : Expr) : Parser (Option Expr) := do
  if let some group ← acceptGroup .lparen then
    return some ⟨.call base [] (← callArgs g group), base.span.merge group.span⟩
  if let some angle ← acceptGroup .langle then
    return some (← typedCall g base angle)
  if let some _ ← accept .dot then
    return some (← member g base)
  if let some group ← acceptGroup .lbracket then
    let index ← enclosed g group .expectedIndex
    return some ⟨.index base index, base.span.merge group.span⟩
  return none

def postfixes (g : Grammar) : Nat → Expr → Parser Expr
  | 0, base => return base
  | rounds + 1, base => do
    match ← postfixStep g base with
    | some e => postfixes g rounds e
    | none => return base

/-- An expression without operators. Nothing may follow those that end in a brace. -/
def postfixed (g : Grammar) (structs : Bool) : Parser Expr := do
  let base ← primary g structs
  if base.isBlockLike then return base
  postfixes g (← look (·.rest.length)) base

end Ember.Grammar
