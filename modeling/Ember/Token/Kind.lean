/-!
# The kinds of token

Every overloadable operator has two kinds of token: the plain one of expressions, and a marked one,
written with a backtick before it, that names the operator in a function declaration.
-/
set_option autoImplicit false

namespace Ember

inductive Operator where
  | plus | minus | star | slash | hash | caret | tilde | pipe | amp | orOr | andAnd | backslash
  | eqEq | notEq | ltEq | gtEq | lt | gt | bang | arrow | percent | tildeEq
  deriving DecidableEq, Inhabited

namespace Operator

def all : List Operator :=
  [.plus, .minus, .star, .slash, .hash, .caret, .tilde, .pipe, .amp, .orOr, .andAnd, .backslash,
   .eqEq, .notEq, .ltEq, .gtEq, .lt, .gt, .bang, .arrow, .percent, .tildeEq]

def name : Operator → String
  | .plus => "Plus"
  | .minus => "Minus"
  | .star => "Star"
  | .slash => "Slash"
  | .hash => "Hash"
  | .caret => "Caret"
  | .tilde => "Tilde"
  | .pipe => "Pipe"
  | .amp => "Amp"
  | .orOr => "OrOr"
  | .andAnd => "AndAnd"
  | .backslash => "Backslash"
  | .eqEq => "EqEq"
  | .notEq => "NotEq"
  | .ltEq => "LtEq"
  | .gtEq => "GtEq"
  | .lt => "Lt"
  | .gt => "Gt"
  | .bang => "Bang"
  | .arrow => "Arrow"
  | .percent => "Percent"
  | .tildeEq => "TildeEq"

def spelling : Operator → String
  | .plus => "+"
  | .minus => "-"
  | .star => "*"
  | .slash => "/"
  | .hash => "#"
  | .caret => "^"
  | .tilde => "~"
  | .pipe => "|"
  | .amp => "&"
  | .orOr => "||"
  | .andAnd => "&&"
  | .backslash => "\\"
  | .eqEq => "=="
  | .notEq => "!="
  | .ltEq => "<="
  | .gtEq => ">="
  | .lt => "<"
  | .gt => ">"
  | .bang => "!"
  | .arrow => "->"
  | .percent => "%"
  | .tildeEq => "~="

def overloads : Operator → String
  | .plus => "_add"
  | .minus => "_sub"
  | .star => "_mul"
  | .slash => "_div"
  | .hash => "_hash"
  | .caret => "_pow"
  | .tilde => "_tilde"
  | .pipe => "_bitor"
  | .amp => "_bitand"
  | .orOr => "_or"
  | .andAnd => "_and"
  | .backslash => "_bslash"
  | .eqEq => "_eq"
  | .notEq => "_ne"
  | .ltEq => "_le"
  | .gtEq => "_ge"
  | .lt => "_lt"
  | .gt => "_gt"
  | .bang => "_not"
  | .arrow => "_arrow"
  | .percent => "_rem"
  | .tildeEq => "_approx"

end Operator

inductive Keyword where
  | kwFn | kwLet | kwMut | kwConst | kwIf | kwElse | kwMatch | kwFor | kwIn | kwWhile | kwLoop
  | kwBreak | kwContinue | kwReturn | kwStruct | kwMatrix | kwUse | kwSource | kwAssert | kwTrue
  | kwFalse | kwPub | kwParam | kwType | kwAs | kwWhere | kwWith | kwAny | kwData | kwRule | kwSelf
  | kwEnum | kwTrait | kwImpl | kwDo | kwYield | kwImport | kwExport | kwInline | kwExtern
  deriving DecidableEq, Inhabited

namespace Keyword

def all : List Keyword :=
  [.kwFn, .kwLet, .kwMut, .kwConst, .kwIf, .kwElse, .kwMatch, .kwFor, .kwIn, .kwWhile, .kwLoop,
   .kwBreak, .kwContinue, .kwReturn, .kwStruct, .kwMatrix, .kwUse, .kwSource, .kwAssert,
   .kwTrue, .kwFalse, .kwPub, .kwParam, .kwType, .kwAs, .kwWhere, .kwWith, .kwAny, .kwData,
   .kwRule, .kwSelf, .kwEnum, .kwTrait, .kwImpl, .kwDo, .kwYield, .kwImport, .kwExport,
   .kwInline, .kwExtern]

def spelling : Keyword → String
  | .kwFn => "fn"
  | .kwLet => "let"
  | .kwMut => "mut"
  | .kwConst => "const"
  | .kwIf => "if"
  | .kwElse => "else"
  | .kwMatch => "match"
  | .kwFor => "for"
  | .kwIn => "in"
  | .kwWhile => "while"
  | .kwLoop => "loop"
  | .kwBreak => "break"
  | .kwContinue => "continue"
  | .kwReturn => "return"
  | .kwStruct => "struct"
  | .kwMatrix => "matrix"
  | .kwUse => "use"
  | .kwSource => "source"
  | .kwAssert => "assert"
  | .kwTrue => "true"
  | .kwFalse => "false"
  | .kwPub => "pub"
  | .kwParam => "param"
  | .kwType => "type"
  | .kwAs => "as"
  | .kwWhere => "where"
  | .kwWith => "with"
  | .kwAny => "any"
  | .kwData => "data"
  | .kwRule => "rule"
  | .kwSelf => "self"
  | .kwEnum => "enum"
  | .kwTrait => "trait"
  | .kwImpl => "impl"
  | .kwDo => "do"
  | .kwYield => "yield"
  | .kwImport => "import"
  | .kwExport => "export"
  | .kwInline => "inline"
  | .kwExtern => "extern"

def ofWord? (word : String) : Option Keyword := all.find? (·.spelling == word)

/-- Keywords without a rule of their own; they are no names either. -/
def isReserved : Keyword → Bool
  | .kwWhile | .kwLoop | .kwReturn | .kwPub | .kwType | .kwAs | .kwWhere | .kwWith | .kwAny |
  .kwData | .kwRule | .kwSelf | .kwEnum | .kwTrait | .kwImpl | .kwDo | .kwYield | .kwImport |
  .kwExport | .kwInline | .kwExtern => true
  | _ => false

end Keyword

/-- A token's kind. `langle` and `rangle` enclose type arguments; `interpOpen` opens an expression
inside foreign text; `unknown` is a character that starts no token. -/
inductive TokenKind where
  | ident | builtin | symbol | label | param | int | hex | float | str | sourceText | interpOpen
  | lparen | rparen | lbracket | rbracket | lbrace | rbrace | langle | rangle | comma | semi | colon
  | dot | dotDot | assign | fatArrow | plusAssign | minusAssign | starAssign | slashAssign
  | underscore
  | op (o : Operator) | marked (o : Operator) | keyword (k : Keyword) | unknown
  deriving DecidableEq, Inhabited

namespace TokenKind

def all : List TokenKind :=
  [.ident, .builtin, .symbol, .label, .param, .int, .hex, .float, .str, .sourceText,
   .interpOpen, .lparen, .rparen, .lbracket, .rbracket, .lbrace, .rbrace, .langle, .rangle,
   .comma, .semi, .colon, .dot, .dotDot, .assign, .fatArrow, .plusAssign, .minusAssign,
   .starAssign, .slashAssign, .underscore] ++
  Operator.all.map .op ++ Operator.all.map .marked ++ Keyword.all.map .keyword ++ [.unknown]

def index (k : TokenKind) : Nat := all.idxOf k

def name : TokenKind → String
  | .ident => "Ident"
  | .builtin => "Builtin"
  | .symbol => "Symbol"
  | .label => "Label"
  | .param => "Param"
  | .int => "Int"
  | .hex => "Hex"
  | .float => "Float"
  | .str => "Str"
  | .sourceText => "SourceText"
  | .interpOpen => "InterpOpen"
  | .lparen => "LParen"
  | .rparen => "RParen"
  | .lbracket => "LBracket"
  | .rbracket => "RBracket"
  | .lbrace => "LBrace"
  | .rbrace => "RBrace"
  | .langle => "LAngle"
  | .rangle => "RAngle"
  | .comma => "Comma"
  | .semi => "Semi"
  | .colon => "Colon"
  | .dot => "Dot"
  | .dotDot => "DotDot"
  | .assign => "Assign"
  | .fatArrow => "FatArrow"
  | .plusAssign => "PlusAssign"
  | .minusAssign => "MinusAssign"
  | .starAssign => "StarAssign"
  | .slashAssign => "SlashAssign"
  | .underscore => "Underscore"
  | .op o => o.name
  | .marked o => "Marked" ++ o.name
  | .keyword k => "Kw" ++ k.spelling.capitalize
  | .unknown => "Unknown"

/-- How a kind is written, or a word for it where the text varies. -/
def text : TokenKind → String
  | .ident => "identifier"
  | .builtin => "builtin"
  | .symbol => "symbol"
  | .label => "label"
  | .param => "parameter"
  | .int => "integer"
  | .hex => "integer"
  | .float => "float"
  | .str => "string"
  | .sourceText => "source text"
  | .interpOpen => "$\x7b"
  | .lparen => "("
  | .rparen => ")"
  | .lbracket => "["
  | .rbracket => "]"
  | .lbrace => "\x7b"
  | .rbrace => "\x7d"
  | .langle => "<"
  | .rangle => ">"
  | .comma => ","
  | .semi => ";"
  | .colon => ":"
  | .dot => "."
  | .dotDot => ".."
  | .assign => "="
  | .fatArrow => "=>"
  | .plusAssign => "+="
  | .minusAssign => "-="
  | .starAssign => "*="
  | .slashAssign => "/="
  | .underscore => "_"
  | .op o => o.spelling
  | .marked _ => "overloaded operator"
  | .keyword k => k.spelling
  | .unknown => "unknown token"

def ofName? (name : String) : Option TokenKind := all.find? (·.name == name)

def isKeyword : TokenKind → Bool
  | .keyword _ => true
  | _ => false

def isReserved : TokenKind → Bool
  | .keyword k => k.isReserved
  | _ => false

def isOperator : TokenKind → Bool
  | .op _ => true
  | _ => false

def isMarked : TokenKind → Bool
  | .marked _ => true
  | _ => false

def marked? : TokenKind → Option TokenKind
  | .op o => some (.marked o)
  | _ => none

def unmarked? : TokenKind → Option TokenKind
  | .marked o => some (.op o)
  | _ => none

/-- The name of an operator's overloads, in either form. -/
def overloads? : TokenKind → Option String
  | .op o | .marked o => some o.overloads
  | _ => none

def isOpenBracket : TokenKind → Bool
  | .lparen | .lbracket | .lbrace | .langle | .interpOpen => true
  | _ => false

def isCloseBracket : TokenKind → Bool
  | .rparen | .rbracket | .rbrace | .rangle => true
  | _ => false

def closing? : TokenKind → Option TokenKind
  | .lparen => some .rparen
  | .lbracket => some .rbracket
  | .lbrace | .interpOpen => some .rbrace
  | .langle => some .rangle
  | _ => none

/-- Whether a value may end here, so that a `:` joined to it introduces a type. -/
def endsValue : TokenKind → Bool
  | .ident | .builtin | .symbol | .param | .int | .hex | .float | .str
  | .rparen | .rbracket | .rbrace | .rangle | .keyword .kwTrue | .keyword .kwFalse => true
  | _ => false

end TokenKind
end Ember
