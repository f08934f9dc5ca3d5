import Ember.Code
import Ember.Layout

/-!
# Statements and functions of the target languages

A statement is a line of text, or several if it holds other statements; those stand two spaces
further in.
-/
set_option autoImplicit false

namespace Ember

inductive JumpKind where
  | leave | proceed
  deriving DecidableEq, Inhabited

def JumpKind.keyword : JumpKind → String
  | .leave => "break"
  | .proceed => "continue"

inductive Line where
  /-- What is assigned later has no first value. -/
  | declare (storage : Storage) (name : String) (init : Option Code) (mutable : Bool)
  | assign (place value : Code)
  | eval (c : Code)
  | branch (cond : Code) (yes no : List Line)
  /-- Counts a new variable up from `start` to below `stop`. -/
  | loop (label : Option String) (var : String) (start stop : Code) (body : List Line)
  | jump (kind : JumpKind) (label : Option String)
  /-- Stops the program unless a condition holds. -/
  | require (cond : Code)
  | give (c : Code)
  /-- A line from outside. -/
  | foreign (text : String)
  deriving Inhabited

namespace Line

def declareText (target : Target) (storage : Storage) (name : String) (init : Option Code)
    (mutable : Bool) : String :=
  let start := match target, init with
    | .glsl, _ => storage.glslName
    | .js, some _ => if mutable then "let" else "const"
    | .js, none => "let"
  match init with
  | some c => start ++ " " ++ name ++ " = " ++ c.text target ++ ";"
  | none => start ++ " " ++ name ++ ";"

def counterType : Target → String
  | .glsl => "int"
  | .js => "let"

def loopHeader (target : Target) (label : Option String) (var : String) (start stop : Code) :
    String :=
  (match label with
    | some l => l ++ ": "
    | none => "") ++
    "for (" ++ counterType target ++ " " ++ var ++ " = " ++ start.text target ++ "; " ++ var ++
    " < " ++ stop.text target ++ "; " ++ var ++ "++) \x7b"

mutual

def texts (target : Target) : Line → List String
  | .declare storage name init mutable => [declareText target storage name init mutable]
  | .assign place value => [place.text target ++ " = " ++ value.text target ++ ";"]
  | .eval c => [c.text target ++ ";"]
  | .branch cond yes no =>
    ("if (" ++ cond.text target ++ ") \x7b") :: inner target yes ++
      (if no.isEmpty then [] else "\x7d else \x7b" :: inner target no) ++ ["\x7d"]
  | .loop label var start stop body =>
    loopHeader target label var start stop :: inner target body ++ ["\x7d"]
  | .jump kind label =>
    [kind.keyword ++ (match label with
      | some l => " " ++ l
      | none => "") ++ ";"]
  | .require cond =>
    ["if (!(" ++ cond.text target ++ ")) throw new Error(\"assertion failed\");"]
  | .give c => ["return " ++ c.text target ++ ";"]
  | .foreign text => [text]

def inner (target : Target) : List Line → List String
  | [] => []
  | l :: ls => (l.texts target).map ("  " ++ ·) ++ inner target ls

end

end Line

structure FnCode where
  name : String
  params : List (String × Storage)
  result : Storage
  body : List Line

def FnCode.header (f : FnCode) : Target → String
  | .glsl =>
    f.result.glslName ++ " " ++ f.name ++ "(" ++
      String.intercalate ", " (f.params.map fun p => p.2.glslName ++ " " ++ p.1) ++ ") \x7b"
  | .js => "function " ++ f.name ++ "(" ++ String.intercalate ", " (f.params.map (·.1)) ++ ") \x7b"

def FnCode.text (f : FnCode) (target : Target) : String :=
  String.intercalate "\n" (f.header target :: Line.inner target f.body ++ ["\x7d"])

structure Uniform where
  name : String
  storage : Storage

def Uniform.text (u : Uniform) : String :=
  "uniform " ++ u.storage.glslName ++ " u_" ++ u.name ++ ";"

/-- What is written for a target, each part in the order in which it came about. -/
structure Output where
  structs : List SlotStruct := []
  uniforms : List Uniform := []
  functions : List FnCode := []
  main : List Line := []
  deriving Inhabited

namespace Output

def version : String :=
  "#version 300 es\nprecision highp float;\nprecision highp int;"

def text (o : Output) (target : Target) (header : Bool) : String :=
  let sections :=
    (if header && target == .glsl then [version] else []) ++
    (if o.uniforms.isEmpty then []
      else [String.intercalate "\n" (o.uniforms.map Uniform.text)]) ++
    o.structs.map SlotStruct.text ++ o.functions.map (·.text target) ++
    (if o.main.isEmpty then []
      else [String.intercalate "\n" (o.main.flatMap (·.texts target))])
  let all := String.intercalate "\n\n" sections
  if all.isEmpty then all else all ++ "\n"

end Output
end Ember
