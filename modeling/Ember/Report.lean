import Ember.Failure
import Ember.Issue
import Ember.Source

/-!
# Reports

Problems as a terminal shows them: what is wrong, where, and the line of source with marks under it.
-/
set_option autoImplicit false

namespace Ember

inductive ColorMode where
  | auto | always | never
  deriving DecidableEq, Inhabited

def ColorMode.colored (mode : ColorMode) (terminal : Bool) : Bool :=
  match mode with
  | .auto => terminal
  | .always => true
  | .never => false

inductive Color where
  | error | warning | bold | gutter
  deriving DecidableEq, Inhabited

def Color.code : Color → String
  | .error => "\x1b[1;31m"
  | .warning => "\x1b[1;33m"
  | .bold => "\x1b[1m"
  | .gutter => "\x1b[1;34m"

structure Report where
  sources : Sources
  colored : Bool := false

namespace Report

def paint (r : Report) (color : Color) (text : String) : String :=
  if r.colored then color.code ++ text ++ "\x1b[0m" else text

/-- The place of a span and its first line, marked. A span in no source shows nothing. -/
def snippet (r : Report) (span : Span) : String :=
  match r.sources.chunk? span.chunk with
  | none => ""
  | some chunk =>
    let start := chunk.lineCol span.start
    let stop := chunk.lineCol span.stop
    let number := toString start.line
    let pad := "".pushn ' ' number.length
    let text := chunk.lineText start.line
    let last := if stop.line = start.line then stop.col else text.utf8ByteSize + 1
    let width := max (last - start.col) 1
    r.paint .gutter (pad ++ "--> ") ++ s!"{chunk.name}:{start.line}:{start.col}\n" ++
      r.paint .gutter (pad ++ " |\n") ++ r.paint .gutter (number ++ " | ") ++ text ++ "\n" ++
      r.paint .gutter (pad ++ " | ") ++
      r.paint .error ("".pushn ' ' (start.col - 1) ++ "".pushn '^' width ++ "\n")

def issue (r : Report) (i : Issue) : String :=
  r.paint .error ("error[" ++ i.code.text ++ "]") ++ r.paint .bold (": " ++ i.code.message ++ "\n") ++
    r.snippet i.span

def shown (limit : Nat) (issues : List Issue) : Nat := min issues.length limit

def issues (r : Report) (limit : Nat) (all : List Issue) : String :=
  let hidden := all.length - shown limit all
  String.join (((Issue.sorted all).take limit).map r.issue) ++
    if hidden = 0 then ""
    else r.paint .warning (s!"... and {hidden} more " ++ plural hidden "issue" ++ "\n")

def notice (r : Report) (n : Notice) : String :=
  let color := match n.what.severity with
    | .issue | .bug => Color.error
    | .todo => .warning
  r.paint color n.what.severity.text ++ r.paint .bold (": " ++ n.what.message ++ "\n") ++
    (match n.span with
      | some span => r.snippet span
      | none => "") ++
    if n.what.severity = .bug then "note: this is a compiler bug, please report it\n" else ""

end Report
end Ember
