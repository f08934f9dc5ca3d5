import Ember.Grammar.Expr
import Ember.Grammar.Item
import Ember.Token.Scan

/-!
# From a text to its syntax

`Grammar.ofDepth n` holds the rules with calls among them nested up to `n` deep. A call beyond that
reports an unexpected token and reads nothing. A text of `n` tokens is read with the rules of depth
`n + 1`.
-/
set_option autoImplicit false

namespace Ember

def Grammar.none : Grammar where
  expr _ := return Expr.missing (← Parser.missing .unexpectedToken)
  unary _ := return Expr.missing (← Parser.missing .unexpectedToken)
  ifExpr := return Expr.missing (← Parser.missing .unexpectedToken)
  block _ := return ⟨[], Option.none, ← Parser.missing .unexpectedToken⟩
  type _ := return ⟨.empty, ← Parser.missing .unexpectedToken⟩
  pat _ := return ⟨.ignore, ← Parser.missing .unexpectedToken⟩

def Grammar.ofDepth : Nat → Grammar
  | 0 => Grammar.none
  | n + 1 =>
    { expr := fun structs s => exprRule (ofDepth n) structs s
      unary := fun structs s => unaryRule (ofDepth n) structs s
      ifExpr := fun s => ifRule (ofDepth n) s
      block := fun group s => blockRule (ofDepth n) group s
      type := fun code s => typeRule (ofDepth n) code s
      pat := fun code s => patRule (ofDepth n) code s }

def TokenTree.grammar (t : TokenTree) : Grammar := Grammar.ofDepth (t.tokens.length + 1)

structure Parsed (α : Type) where
  result : α
  issues : List Issue
  names : NameTable

/-- Runs a parser on the whole of a text. The names that were met before are in `names`. -/
def parseWith {α : Type} (p : Grammar → Parser α) (chunk : Nat) (names : NameTable)
    (text : String) : Parsed α :=
  let (tree, lexical) := TokenTree.ofText chunk text
  let r := (p tree.grammar) { Stream.ofTree tree with names, issues := lexical.toArray }
  ⟨r.1, r.2.issues.toList, r.2.names⟩

def Script.parser (g : Grammar) : Parser Script := do
  return ⟨← Grammar.scriptItems g (← Parser.look (·.rest.length))⟩

def Script.parse (chunk : Nat) (text : String) : Parsed Script :=
  parseWith Script.parser chunk {} text

def Expr.parser (g : Grammar) : Parser Expr := do
  let e ← Grammar.exprOr (g.expr true) .expectedExpression
  Parser.finish
  return e

def Expr.parse (chunk : Nat) (text : String) : Parsed Expr :=
  parseWith Expr.parser chunk {} text

end Ember
