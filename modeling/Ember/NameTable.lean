/-!
# Numbered names

In the order in which they were first met. The empty name is always number 0.
-/
set_option autoImplicit false

namespace Ember

structure NameTable where
  names : Array String := #[""]
  deriving Inhabited

namespace NameTable

def size (t : NameTable) : Nat := t.names.size

def find? (t : NameTable) (name : String) : Option Nat := t.names.idxOf? name

/-- The name with a number, or the empty name if no name has it. -/
def lookup (t : NameTable) (n : Nat) : String := t.names.getD n ""

def add (t : NameTable) (name : String) : NameTable :=
  if t.names.contains name then t else ⟨t.names.push name⟩

def intern (t : NameTable) (name : String) : Nat × NameTable :=
  match t.find? name with
  | some n => (n, t)
  | none => (t.names.size, ⟨t.names.push name⟩)

end NameTable
end Ember
