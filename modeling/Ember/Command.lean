import Ember.Files
import Ember.Syntax.Outline
import Ember.Token.Listing

/-!
# The command line
-/
set_option autoImplicit false

namespace Ember

structure Outcome where
  code : Nat := 0
  out : String := ""
  err : String := ""
  deriving DecidableEq, Inhabited

namespace Command

def usage : String :=
  "Usage: ember <command> <file.ember> [options]\n" ++
  "\n" ++
  "Commands:\n" ++
  "  lex     Print the token tree\n" ++
  "  parse   Print the syntax tree\n" ++
  "  check   Compile and report problems\n" ++
  "  emit    Print the generated code\n" ++
  "  sig     Print every declared function signature\n" ++
  "\n" ++
  "Options:\n" ++
  "  --target=<js|glsl|both>   Backends to emit (default: both)\n" ++
  "  --error-limit=<n>         Issues shown before summarising\n" ++
  "  --no-header               Omit the GLSL version header\n"

def refuse (message : String) : Outcome := { code := 1, err := "error: " ++ message ++ "\n" }

/-- Flags and one path, in any order. -/
def arguments : Options → Option String → List String → Except String (Options × Option String)
  | o, path, [] => .ok (o, path)
  | o, path, arg :: args =>
    match o.apply arg, path with
    | .ok (some o), _ => arguments o path args
    | .ok none, none => arguments o (some arg) args
    | .ok none, some _ => .error s!"unexpected argument `{arg}`"
    | .error e, _ => .error e.message

def withIssues (out path text : String) (issues : List Issue) (o : Options) : Outcome :=
  if issues.isEmpty then { out }
  else
    let report : Report := { sources := (({} : Sources).add path text).2 }
    { code := 1, out, err := report.issues o.limit issues }

def lex (path text : String) (o : Options) : Outcome :=
  let (tree, issues) := TokenTree.ofText 0 text
  withIssues tree.listing path text issues o

def parse (path text : String) (o : Options) : Outcome :=
  let p := Script.parse 0 text
  withIssues ((p.result.outline p.names).text ++ "\n") path text p.issues o

def build (files : Files) (path text : String) (o : Options) (print : Compiled → String) :
    Outcome :=
  match compile path text (files.library ((Path.parent? path).getD ".")) o with
  | .ok c => { out := print c }
  | .error h => { code := 1, err := h.report o }

/-- Several targets have their names above them. -/
def outputs (c : Compiled) : String :=
  match c.targets with
  | [target] => (c.text? target).getD ""
  | targets => String.intercalate "\n" (targets.map fun t =>
      "// === " ++ t.name ++ " ===\n" ++ (c.text? t).getD "")

def signatures (c : Compiled) : String := String.join (c.signatures.map (· ++ "\n"))

def runOn (command path text : String) (o : Options) (files : Files) : Outcome :=
  if command = "lex" then lex path text o
  else if command = "parse" then parse path text o
  else if command = "check" then build files path text o fun _ => ""
  else if command = "emit" then build files path text o outputs
  else if command = "sig" then build files path text o signatures
  else
    let r := refuse s!"unknown command `{command}`"
    { r with err := r.err ++ usage }

def run (files : Files) : List String → Outcome
  | command :: arg :: args =>
    match arguments {} none (arg :: args) with
    | .error message => refuse message
    | .ok (_, none) =>
      let r := refuse "missing file path"
      { r with err := r.err ++ usage }
    | .ok (o, some path) =>
      match files.read path with
      | .error p => refuse s!"cannot read `{path}`: {p.message}"
      | .ok text => runOn command path text o files
  | _ => { code := 1, err := usage }

def uses (text : String) : List String :=
  (Script.parse 0 text).result.items.filterMap fun i =>
    match i.kind with
    | .useModule name _ => some name
    | _ => none

end Command
end Ember
