import Ember.Grammar.Primary

/-!
# Operators and their precedence

From the loosest to the tightest: ranges, the nine tiers of left-associative operators, operators
before an operand, and `^`, which groups to the right and binds tighter than an operator on its
left.
-/
set_option autoImplicit false

namespace Ember.Grammar

open Ember.Parser

/-- The left-associative operators, the loosest first. -/
def tiers : List (List BinaryOp) :=
  [[.or], [.and], [.bitOr], [.bitAnd], [.eq, .notEq, .approx], [.lt, .gt, .ltEq, .gtEq],
   [.concat, .arrow], [.add, .sub], [.mul, .div, .rem, .leftDiv]]

def operatorOf (tier : List BinaryOp) (s : Stream) : Option BinaryOp :=
  match s.kind? with
  | some kind => tier.find? fun b => kind == .op b.operator
  | none => none

/-- Further operands of a tier; each round reads an operator. -/
def operands (tier : List BinaryOp) (operand : Parser Expr) : Nat → Expr → Parser Expr
  | 0, lhs => return lhs
  | rounds + 1, lhs => do
    match ← look (operatorOf tier) with
    | none => return lhs
    | some op =>
      let _ ← next
      let rhs ← exprOr operand .expectedOperand
      let last ← look Stream.last
      operands tier operand rounds
        ⟨.binary op lhs rhs, (lhs.span.merge rhs.span).merge last⟩

def leftAssoc (tier : List BinaryOp) (operand : Parser Expr) : Parser Expr := do
  let lhs ← operand
  operands tier operand (← look (·.rest.length)) lhs

def power (g : Grammar) (structs : Bool) : Parser Expr := do
  let base ← postfixed g structs
  match ← accept (.op .caret) with
  | none => return base
  | some _ =>
    let exponent ← exprOr (g.unary structs) .expectedOperand
    let last ← look Stream.last
    return ⟨.binary .pow base exponent, (base.span.merge exponent.span).merge last⟩

/-- The three joined tokens of `d/dx`, if they come next. -/
def derivative? (s : Stream) : Option (Token × Token) :=
  match s.rest with
  | .token d :: .token slash :: .token dx :: _ =>
    if d.kind = .ident ∧ slash.kind = .op .slash ∧ dx.kind = .ident ∧ slash.glued ∧ dx.glued ∧
        d.text = "d" ∧ dx.text.length > 1 ∧ dx.text.toList.head? = some 'd' then
      some (d, dx)
    else none
  | _ => none

def unaryRule (g : Grammar) (structs : Bool) : Parser Expr := do
  if let some (d, dx) ← look derivative? then
    let _ ← next
    let _ ← next
    let _ ← next
    let var ← identOf dx 1
    let body ← exprOr (g.unary structs) .expectedDerivativeBody
    return ⟨.deriv var body, ← look (·.spanFrom d.span)⟩
  match ← look fun s => s.kind?.bind UnaryOp.ofToken? with
  | none => power g structs
  | some op =>
    let _ ← next
    let start ← look Stream.last
    let operand ← exprOr (g.unary structs) .expectedOperand
    return ⟨.unary op operand, start.merge operand.span⟩

def operation (g : Grammar) (structs : Bool) : Parser Expr :=
  tiers.foldr leftAssoc (unaryRule g structs)

def rangeFrom (g : Grammar) (structs : Bool) (start : Option Expr) : Parser Expr := do
  match ← accept .dotDot with
  | none => return Expr.missing (← look Stream.here)
  | some dots =>
    let stop ← if ← look fun s => atExpr s && !s.atToken .dotDot
      then some <$> operation g structs
      else pure none
    let first := (start.map Expr.span).getD dots.span
    return ⟨.range start stop, ← look (·.spanFrom first)⟩

def exprRule (g : Grammar) (structs : Bool) : Parser Expr := do
  if ← look (·.atToken .dotDot) then rangeFrom g structs none
  else
    let lhs ← operation g structs
    if ← look (·.atToken .dotDot) then rangeFrom g structs (some lhs) else return lhs

end Ember.Grammar
