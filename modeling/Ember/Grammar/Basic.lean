import Ember.Stream

/-!
# What the rules of the grammar share

Rules call each other through a `Grammar`, a record of the rules that occur inside themselves. Such
a call is made only after a node was read or a group entered, so the calls nest no deeper than there
are tokens.
-/
set_option autoImplicit false

namespace Ember

/-- The rules that occur inside themselves. The flag of `expr` and `unary` says whether a name before
a brace starts a struct literal; in a condition it does not. -/
structure Grammar where
  expr : Bool → Parser Expr
  unary : Bool → Parser Expr
  ifExpr : Parser Expr
  block : Group → Parser Block
  type : IssueCode → Parser TypeExpr
  pat : IssueCode → Parser Pat

namespace Grammar

def isLiteral : TokenKind → Bool
  | .int | .hex | .float | .keyword .kwTrue | .keyword .kwFalse => true
  | _ => false

def startsItem : TokenKind → Bool
  | .keyword .kwFn | .keyword .kwStruct | .keyword .kwMatrix | .keyword .kwConst
  | .keyword .kwParam | .keyword .kwAssert | .keyword .kwUse => true
  | _ => false

def startsExpr : TokenKind → Bool
  | .ident | .builtin | .symbol | .label | .param | .lparen | .lbracket | .lbrace
  | .op .minus | .op .bang | .op .hash | .dotDot
  | .keyword .kwIf | .keyword .kwMatch | .keyword .kwFor | .keyword .kwSource => true
  | kind => isLiteral kind

def startsPat : TokenKind → Bool
  | .ident | .underscore | .keyword .kwMut | .op .minus | .lbracket => true
  | kind => isLiteral kind

def startsType : TokenKind → Bool
  | .ident | .lbracket => true
  | _ => false

/-- Whether an expression can start here. Marked operators and reserved keywords count, so that
they are reported for what they are. -/
def atExpr (s : Stream) : Bool :=
  s.atAny startsExpr ||
    match s.kind? with
    | some kind => kind.isMarked || kind.isReserved
    | none => false

def exprOr (p : Parser Expr) (code : IssueCode) : Parser Expr := do
  if ← Parser.look atExpr then p else return Expr.missing (← Parser.missing code)

end Grammar
end Ember
