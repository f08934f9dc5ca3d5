import Ember.Token.Kind

/-!
# The operators of expressions, and their tokens
-/
set_option autoImplicit false

namespace Ember

inductive BinaryOp where
  | mul | div | rem | leftDiv | add | sub | concat | arrow | lt | gt | ltEq | gtEq
  | eq | notEq | approx | bitAnd | bitOr | and | or | pow
  deriving DecidableEq, Inhabited

namespace BinaryOp

def all : List BinaryOp :=
  [.mul, .div, .rem, .leftDiv, .add, .sub, .concat, .arrow, .lt, .gt, .ltEq, .gtEq,
   .eq, .notEq, .approx, .bitAnd, .bitOr, .and, .or, .pow]

def name : BinaryOp → String
  | .mul => "Mul"
  | .div => "Div"
  | .rem => "Rem"
  | .leftDiv => "LeftDiv"
  | .add => "Add"
  | .sub => "Sub"
  | .concat => "Concat"
  | .arrow => "Arrow"
  | .lt => "Lt"
  | .gt => "Gt"
  | .ltEq => "LtEq"
  | .gtEq => "GtEq"
  | .eq => "Eq"
  | .notEq => "NotEq"
  | .approx => "Approx"
  | .bitAnd => "BitAnd"
  | .bitOr => "BitOr"
  | .and => "And"
  | .or => "Or"
  | .pow => "Pow"

def operator : BinaryOp → Operator
  | .mul => .star
  | .div => .slash
  | .rem => .percent
  | .leftDiv => .backslash
  | .add => .plus
  | .sub => .minus
  | .concat => .tilde
  | .arrow => .arrow
  | .lt => .lt
  | .gt => .gt
  | .ltEq => .ltEq
  | .gtEq => .gtEq
  | .eq => .eqEq
  | .notEq => .notEq
  | .approx => .tildeEq
  | .bitAnd => .amp
  | .bitOr => .pipe
  | .and => .andAnd
  | .or => .orOr
  | .pow => .caret

def symbol (b : BinaryOp) : String := b.operator.spelling

def overloads (b : BinaryOp) : String := b.operator.overloads

def ofToken? (kind : TokenKind) : Option BinaryOp := all.find? fun b => kind == .op b.operator

end BinaryOp

inductive UnaryOp where
  | neg | not | count
  deriving DecidableEq, Inhabited

namespace UnaryOp

def all : List UnaryOp := [.neg, .not, .count]

def name : UnaryOp → String
  | .neg => "Neg"
  | .not => "Not"
  | .count => "Count"

def operator : UnaryOp → Operator
  | .neg => .minus
  | .not => .bang
  | .count => .hash

def symbol (u : UnaryOp) : String := u.operator.spelling

/-- Shared with the binary operator of the same spelling. -/
def overloads (u : UnaryOp) : String := u.operator.overloads

def ofToken? (kind : TokenKind) : Option UnaryOp := all.find? fun u => kind == .op u.operator

end UnaryOp

inductive AssignOp where
  | set | add | sub | mul | div
  deriving DecidableEq, Inhabited

namespace AssignOp

def name : AssignOp → String
  | .set => "Set"
  | .add => "Add"
  | .sub => "Sub"
  | .mul => "Mul"
  | .div => "Div"

def ofToken? : TokenKind → Option AssignOp
  | .assign => some .set
  | .plusAssign => some .add
  | .minusAssign => some .sub
  | .starAssign => some .mul
  | .slashAssign => some .div
  | _ => none

def binary? : AssignOp → Option BinaryOp
  | .set => none
  | .add => some .add
  | .sub => some .sub
  | .mul => some .mul
  | .div => some .div

end AssignOp
end Ember
