/-!
# Fresh numbers and names

Numbers for what a compilation creates, and names made of them. Each number is given once, and it
ends the name, so no two names agree.
-/
set_option autoImplicit false

namespace Ember

structure Ids where
  next : Nat := 1
  deriving Inhabited

namespace Ids

def number (ids : Ids) : Nat × Ids := (ids.next, ⟨ids.next + 1⟩)

def isNameChar (c : Char) : Bool := c.isAlphanum || c == '_'

/-- A stem made fit for a name: other characters become `_`, and so does a missing start. -/
def stem (s : String) : List Char :=
  let cs := s.toList.map fun c => if isNameChar c then c else '_'
  match cs with
  | [] => ['_']
  | c :: _ => if c.isDigit then '_' :: cs else cs

def fresh (ids : Ids) (s : String) : String × Ids :=
  (String.ofList (stem s) ++ "_" ++ toString ids.next, ⟨ids.next + 1⟩)

def temp (ids : Ids) : String × Ids := ("_t" ++ toString ids.next, ⟨ids.next + 1⟩)

end Ids
end Ember
