/-!
# Nested data as an outline

One part a line, four spaces further in for each level, a comma after each part.
-/
set_option autoImplicit false

namespace Ember.Text

inductive Outline where
  | leaf (text : String)
  /-- A name, and parts with names. -/
  | record (name : String) (parts : List (String × Outline))
  /-- A name, and parts without. -/
  | tuple (name : String) (parts : List Outline)
  | list (items : List Outline)
  deriving Inhabited

namespace Outline

def optional : Option Outline → Outline
  | none => .leaf "None"
  | some o => .tuple "Some" [o]

/-- Lines of a part: a label before the first, a comma after the last, and all further in. -/
def part (label : String) (lines : List String) : List String :=
  let labelled := match lines with
    | [] => [label]
    | l :: ls => (label ++ l) :: ls
  (labelled.dropLast ++ (labelled.getLast?.map (· ++ ",")).toList).map ("    " ++ ·)

mutual

def lines : Outline → List String
  | .leaf text => [text]
  | .record name parts => (name ++ " \x7b") :: recordLines parts ++ ["\x7d"]
  | .tuple name parts => (name ++ "(") :: listLines parts ++ [")"]
  | .list [] => ["[]"]
  | .list (i :: is) => "[" :: listLines (i :: is) ++ ["]"]

def recordLines : List (String × Outline) → List String
  | [] => []
  | (label, o) :: rest => part (label ++ ": ") o.lines ++ recordLines rest

def listLines : List Outline → List String
  | [] => []
  | o :: rest => part "" o.lines ++ listLines rest

end

def text (o : Outline) : String := String.intercalate "\n" o.lines

end Outline
end Ember.Text
