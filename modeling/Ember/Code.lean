import Ember.Constant

/-!
# Expressions of the target languages

The tree says what is computed, and parentheses are part of it. Text from outside is a name, whatever
it holds.
-/
set_option autoImplicit false

namespace Ember

inductive CodeOp where
  | add | sub | mul | div | rem | bitAnd | bitOr | lt | gt | le | ge | eq | strictEq | ne | and | or
  deriving DecidableEq, Inhabited

def CodeOp.symbol : CodeOp → String
  | .add => "+"
  | .sub => "-"
  | .mul => "*"
  | .div => "/"
  | .rem => "%"
  | .bitAnd => "&"
  | .bitOr => "|"
  | .lt => "<"
  | .gt => ">"
  | .le => "<="
  | .ge => ">="
  | .eq => "=="
  | .strictEq => "==="
  | .ne => "!="
  | .and => "&&"
  | .or => "||"

inductive Code where
  | name (text : String)
  | lit (s : Scalar)
  | paren (c : Code)
  | binary (op : CodeOp) (left right : Code)
  | neg (c : Code)
  | not (c : Code)
  /-- `c ? a : b` -/
  | choice (cond yes no : Code)
  | call (fn : String) (args : List Code)
  | list (items : List Code)
  | member (base : Code) (name : String)
  | index (base index : Code)
  /-- A part by its place, a number without a sign. -/
  | slot (base : Code) (place : Nat)
  deriving Inhabited

namespace Code

/-- An operation that may stand beside any operator. -/
def op (o : CodeOp) (a b : Code) : Code := .paren (.binary o a b)

mutual

def text (target : Target) : Code → String
  | .name t => t
  | .lit s => s.text target
  | .paren c => "(" ++ c.text target ++ ")"
  | .binary o a b => a.text target ++ " " ++ o.symbol ++ " " ++ b.text target
  | .neg c => "-" ++ c.text target
  | .not c => "!" ++ c.text target
  | .choice c a b => c.text target ++ " ? " ++ a.text target ++ " : " ++ b.text target
  | .call fn args => fn ++ "(" ++ String.intercalate ", " (texts target args) ++ ")"
  | .list items => "[" ++ String.intercalate ", " (texts target items) ++ "]"
  | .member b n => b.text target ++ "." ++ n
  | .index b i => b.text target ++ "[" ++ i.text target ++ "]"
  | .slot b n => b.text target ++ "[" ++ toString n ++ "]"

def texts (target : Target) : List Code → List String
  | [] => []
  | c :: cs => c.text target :: texts target cs

end

end Code

/-! Simple texts -/

def isWordStart (c : Char) : Bool := c.isAlpha || c == '_' || c == '$'

def isWordChar (c : Char) : Bool := c.isAlphanum || c == '_' || c == '$'

theorem length_dropWhile_le {α : Type} (p : α → Bool) (l : List α) :
    (l.dropWhile p).length ≤ l.length := (List.dropWhile_suffix p).length_le

/-- Projections: `.word`, or digits in brackets. -/
def isProjections : List Char → Bool
  | [] => true
  | c :: cs =>
    if c = '.' then
      !(cs.takeWhile isWordChar).isEmpty && isProjections (cs.dropWhile isWordChar)
    else if c = '[' then
      match _h : cs.dropWhile Char.isDigit with
      | d :: rest => d == ']' && !(cs.takeWhile Char.isDigit).isEmpty && isProjections rest
      | [] => false
    else false
termination_by cs => cs.length
decreasing_by
  · exact Nat.lt_succ_of_le (length_dropWhile_le _ _)
  · have := length_dropWhile_le Char.isDigit cs
    rw [_h] at this
    simp only [List.length_cons] at *
    omega

/-- A word, then projections. Such a text can be repeated without computing anything twice. An
index that is not a number may change, so it is not simple. -/
def isSimpleText (cs : List Char) : Bool :=
  match cs with
  | [] => false
  | c :: _ => isWordStart c && isProjections (cs.dropWhile isWordChar)

end Ember
