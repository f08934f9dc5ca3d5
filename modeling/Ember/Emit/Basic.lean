import Ember.Program.Basic
import Ember.Ty.Declare

/-!
# The state of lowering

Lowering runs inside a function body: lexical blocks within each other, the loops around, and the
types that a template was called with. What it does to the program stays when it fails; blocks and
frames are left as they were found, however it ends.
-/
set_option autoImplicit false

namespace Ember

structure Level where
  lines : List Line := []
  locals : List (String × Value) := []
  deriving Inhabited

/-- A loop to jump out of. Only JavaScript has labels. -/
structure Loop where
  label : Option String
  backend : Option String
  deriving DecidableEq, Inhabited

/-- A function body. Blocks and loops are listed from the inside out. -/
structure Activation where
  level : Level := {}
  outer : List Level := []
  loops : List Loop := []
  typeParams : List (String × Ty) := []
  deriving Inhabited

/-- The value of a local name; inner ones hide outer ones. -/
def Activation.local? (f : Activation) (name : String) : Option Value :=
  (f.level :: f.outer).findSome? fun l => l.locals.lookup name

structure Emission where
  program : Program
  frame : Activation := {}
  /-- How many calls are being computed within each other. -/
  constDepth : Nat := 0
  deriving Inhabited

namespace Emission

def entered (s : Emission) : Emission :=
  { s with frame := { s.frame with level := {}, outer := s.frame.level :: s.frame.outer } }

def left (s : Emission) : Emission :=
  { s with frame := { s.frame with level := s.frame.outer.headD {}, outer := s.frame.outer.tail } }

def looping (s : Emission) (loop : Loop) : Emission :=
  { s with frame := { s.frame with loops := loop :: s.frame.loops } }

def unlooped (s : Emission) : Emission :=
  { s with frame := { s.frame with loops := s.frame.loops.tail } }

def called (s : Emission) : Emission := { s with constDepth := s.constDepth + 1 }

def returned (s : Emission) : Emission := { s with constDepth := s.constDepth - 1 }

end Emission

abbrev Emit := EStateM Failure Emission

namespace Emit

variable {α : Type}

def look (f : Emission → α) : Emit α := fun s => .ok (f s) s

def problem (p : Problem) : Emit α := throw (.problem p)

def defect (d : Defect) : Emit α := throw (.defect d)

/-- Gives a failure a place, if it has none. -/
def locating (span : Span) (act : Emit α) : Emit α := fun s =>
  match act s with
  | .ok a t => .ok a t
  | .error f t => .error (f.locate span) t

def modifyProgram (f : Program → Program) : Emit Unit :=
  modify fun s => { s with program := f s.program }

def numbering (n : Numbering α) : Emit α := fun s =>
  match n s.program.ids with
  | .ok a ids => .ok a { s with program := { s.program with ids } }
  | .error f ids => .error f { s with program := { s.program with ids } }

def fresh (stem : String) : Emit String := numbering (modifyGet (Ids.fresh · stem))

def temp : Emit String := numbering (modifyGet Ids.temp)

def voidTy : Emit Ty := look (·.program.builtins.void)

def voidValue : Emit Value := return .const .void (← voidTy)

def vectorTy (kind : ScalarKind) (width : Nat) : Emit Ty := do
  liftM ((← look (·.program.builtins)).vector kind width)

def modifyLevel (f : Level → Level) : Emit Unit :=
  modify fun s => { s with frame := { s.frame with level := f s.frame.level } }

def lines (ls : List Line) : Emit Unit :=
  modifyLevel fun l => { l with lines := l.lines ++ ls }

def line (l : Line) : Emit Unit := lines [l]

def bindName (name : String) (v : Value) : Emit Unit :=
  modifyLevel fun l => { l with locals := (name, v) :: l.locals }

def local? (name : String) : Emit (Option Value) := look (·.frame.local? name)

/-- Runs between a way in and a way out, which is taken however it ends. -/
def bracket (enter leave : Emission → Emission) (act : Emit α) : Emit α := fun s =>
  match act (enter s) with
  | .ok a t => .ok a (leave t)
  | .error f t => .error f (leave t)

/-- Runs in a block of its own, and gives what it wrote. -/
def inBlock (act : Emit α) : Emit (α × List Line) :=
  bracket .entered .left do return (← act, ← look (·.frame.level.lines))

/-- Runs in a block of its own, and leaves what it wrote in the block around. -/
def nested (act : Emit α) : Emit α := do
  let (a, ls) ← inBlock act
  lines ls
  return a

def inFrame (frame : Activation) (act : Emit α) : Emit α := fun s =>
  match act { s with frame } with
  | .ok a t => .ok a { t with frame := s.frame }
  | .error f t => .error f { t with frame := s.frame }

def inLoop (loop : Loop) (act : Emit α) : Emit α := bracket (·.looping loop) .unlooped act

/-- Runs as the computation of a call. -/
def computing (act : Emit α) : Emit α := bracket .called .returned act

def declareVar (name : String) (ty : Ty) (init : Option Code) (mutable : Bool) : Emit Unit :=
  line (.declare (ty.storage .glsl) name init mutable)

end Emit
end Ember
