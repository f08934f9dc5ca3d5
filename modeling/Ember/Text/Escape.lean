/-!
# String literals

A body between double quotes, in which a backslash gives the next character a meaning of its own.

Reading a body never fails. A backslash before any other character stands for that character, and
one at the very end for itself; `unknownEscapes` lists the former as faults.
-/
set_option autoImplicit false

namespace Ember.Escape

def meaning? (c : Char) : Option Char :=
  match c with
  | 'n' => some '\n'
  | 't' => some '\t'
  | 'r' => some '\r'
  | '\\' => some '\\'
  | '"' => some '"'
  | '0' => some '\x00'
  | '$' => some '$'
  | _ => none

def decode : List Char → List Char
  | [] => []
  | '\\' :: [] => ['\\']
  | '\\' :: c :: cs => (meaning? c).getD c :: decode cs
  | c :: cs => c :: decode cs

/-- How many bytes a character has that starts with this one. -/
def sizeOfLead (b : UInt8) : Nat :=
  if b < 0x80 then 1 else if b < 0xE0 then 2 else if b < 0xF0 then 3 else 4

/-- The byte ranges of a backslash and a character to which it gives no meaning, in a body that
starts at offset `pos`. The search goes on after two bytes, even if the character has more. -/
def unknownEscapes : Nat → List UInt8 → List (Nat × Nat)
  | _, [] | _, [_] => []
  | pos, b :: c :: bs =>
    if b = '\\'.toUInt8 then
      let rest := unknownEscapes (pos + 2) bs
      if (meaning? (.ofUInt8 c)).isSome then rest else (pos, pos + 1 + sizeOfLead c) :: rest
    else unknownEscapes (pos + 1) (c :: bs)

/-- A literal without its opening quote, and without a closing quote if it has one. -/
def body (literal : List Char) : List Char :=
  let inner := match literal with
    | '"' :: cs => cs
    | cs => cs
  if inner.getLast? == some '"' then inner.dropLast else inner

end Ember.Escape
