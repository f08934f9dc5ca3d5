import Ember.Token.Kind

/-!
# Lexemes

The words of the language before their neighbours are looked at.

A rule says how many characters it takes at the head of a text, and takes none where it does not
apply. The longest match wins. No two rules take the same text, so their order does not matter. A
text that no rule matches starts with a character that belongs to no lexeme.
-/
set_option autoImplicit false

namespace Ember

/-- The class of a piece of text. A `colonWord` is a word joined to a colon before it; a `bareSign`
wants a word after it and has none; the `marker` makes the operator after it a name; an `openStr`
is a string without a closing quote. -/
inductive Lexeme where
  | blank | comment
  | word | builtin | colonWord | label | param | bareSign
  | hex | int | float | str | openStr
  | marker
  | fixed (kind : TokenKind)
  deriving DecidableEq

namespace Lexeme

def isBlank (c : Char) : Bool :=
  c == ' ' || c == '\t' || c == '\r' || c == '\n' || c == '\x0c'

def isWordStart (c : Char) : Bool := c.isAlpha || c == '_'

def isWordRest (c : Char) : Bool := c.isAlphanum || c == '_'

def isHexDigit (c : Char) : Bool :=
  c.isDigit || ('a' ≤ c && c ≤ 'f') || ('A' ≤ c && c ≤ 'F')

def run (p : Char → Bool) (cs : List Char) : Nat := (cs.takeWhile p).length

def word? : List Char → Nat
  | c :: cs => if isWordStart c then 1 + run isWordRest cs else 0
  | [] => 0

def signed? (sign : Char) : List Char → Nat
  | c :: cs => if c == sign && word? cs != 0 then 1 + word? cs else 0
  | [] => 0

def bareSign? : List Char → Nat
  | c :: _ => if c == '@' || c == '\'' || c == '$' then 1 else 0
  | [] => 0

def comment? : List Char → Nat
  | '/' :: '/' :: cs => 2 + run (· != '\n') cs
  | _ => 0

def hex? : List Char → Nat
  | '0' :: x :: cs =>
    if (x == 'x' || x == 'X') && run isHexDigit cs != 0 then 2 + run isHexDigit cs else 0
  | _ => 0

def exponent? : List Char → Nat
  | e :: cs =>
    if e == 'e' || e == 'E' then
      let sign := match cs with
        | s :: _ => if s == '+' || s == '-' then 1 else 0
        | [] => 0
      let digits := run Char.isDigit (cs.drop sign)
      if digits == 0 then 0 else 1 + sign + digits
    else 0
  | [] => 0

def float? (cs : List Char) : Nat :=
  let whole := run Char.isDigit cs
  if whole == 0 then 0 else
    let fraction := match cs.drop whole with
      | '.' :: rest => run Char.isDigit rest
      | _ => 0
    if fraction == 0 then
      let exponent := exponent? (cs.drop whole)
      if exponent == 0 then 0 else whole + exponent
    else
      let mantissa := whole + 1 + fraction
      mantissa + exponent? (cs.drop mantissa)

/-- The characters of a string body: a newline ends it, and so does a quote that no backslash
precedes. -/
def strBody : List Char → Nat
  | '\\' :: c :: cs => if c == '\n' then 0 else 2 + strBody cs
  | c :: cs => if c == '"' || c == '\\' || c == '\n' then 0 else 1 + strBody cs
  | [] => 0

def openStr? : List Char → Nat
  | '"' :: cs => 1 + strBody cs
  | _ => 0

def str? : List Char → Nat
  | '"' :: cs => if (cs.drop (strBody cs)).head? == some '"' then 2 + strBody cs else 0
  | _ => 0

/-- The kinds of token that have one spelling each and need no rule of their own. -/
def fixedKinds : List TokenKind :=
  [.lparen, .rparen, .lbracket, .rbracket, .lbrace, .rbrace, .comma, .semi, .colon, .dot, .dotDot,
   .assign, .fatArrow, .plusAssign, .minusAssign, .starAssign, .slashAssign] ++
  Operator.all.map .op

def fixed? (spelling : List Char) (cs : List Char) : Nat :=
  if spelling.isPrefixOf cs then spelling.length else 0

def rules : List (Lexeme × (List Char → Nat)) :=
  [(.blank, run isBlank), (.comment, comment?), (.word, word?), (.builtin, signed? '@'),
   (.colonWord, signed? ':'), (.label, signed? '\''), (.param, signed? '$'),
   (.bareSign, bareSign?), (.hex, hex?), (.int, run Char.isDigit), (.float, float?), (.str, str?),
   (.openStr, openStr?), (.marker, fixed? ['`'])] ++
  fixedKinds.map fun kind => (.fixed kind, fixed? kind.text.toList)

/-- The longer of two matches, the first if they are equally long. -/
def longer (a b : Option Lexeme × Nat) : Option Lexeme × Nat := if a.2 < b.2 then b else a

/-- The longest match at the head of a text, with its length; no lexeme and length 0 if no rule
applies. -/
def longest (cs : List Char) : Option Lexeme × Nat :=
  rules.foldl (fun best rule => longer best (some rule.1, rule.2 cs)) (none, 0)

end Lexeme
end Ember
