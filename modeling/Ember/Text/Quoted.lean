import Ember.Text.Invisible

/-!
# Text between double quotes

For listings. What would not show is written out: the usual escapes, and a character's number in
braces for the rest.
-/
set_option autoImplicit false

namespace Ember.Text

def hexDigits (n : Nat) : String := String.ofList (Nat.toDigits 16 n)

def quotedChar (c : Char) : String :=
  if c == '\x00' then "\\0"
  else if c == '\t' then "\\t"
  else if c == '\r' then "\\r"
  else if c == '\n' then "\\n"
  else if c == '"' then "\\\""
  else if c == '\\' then "\\\\"
  else if (' ' ≤ c && c ≤ '~') || (c.toNat > 127 && !isInvisible c) then c.toString
  else "\\u\x7b" ++ hexDigits c.toNat ++ "\x7d"

def quoted (s : String) : String :=
  "\"" ++ String.join (s.toList.map quotedChar) ++ "\""

end Ember.Text
