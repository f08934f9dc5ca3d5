import Ember.Options
import Ember.Parse
import Ember.Program.Item
import Ember.Report

/-!
# A compilation of a unit and of all it uses

Units are processed one inside the other, in the order in which they are first used, and each only
once. A unit that uses itself, through others or not, is refused.
-/
set_option autoImplicit false

namespace Ember

/-- Where units come from. No more than `bound` names can be used one inside the other. -/
structure Library where
  load : String → Except Problem String
  bound : Nat

def Library.ofModules (modules : List (String × String)) : Library where
  load name :=
    match modules.lookup name with
    | some text => .ok text
    | none => .error (.noModule name)
  bound := modules.length

inductive Stop where
  | issues (is : List Issue)
  | failure (f : Failure)

namespace Stop

def text : Stop → String
  | .issues is => toString is.length ++ " syntax " ++ plural is.length "issue"
  | .failure f => f.notice.text

def report (s : Stop) (sources : Sources) (limit : Nat) : String :=
  match s with
  | .issues is => ({ sources } : Report).issues limit is
  | .failure f => ({ sources } : Report).notice f.notice

end Stop

structure Session where
  program : Program
  sources : Sources := {}
  /-- Units that are done. -/
  loaded : List String := []
  /-- Units that are being processed, the innermost first. -/
  active : List String := []

abbrev Compile := EStateM Stop Session

namespace Session

def item (targets : List Target) (i : Item) : Compile Unit := fun s =>
  match s.program.item i targets with
  | (.ok _, program) => .ok () { s with program }
  | (.error f, program) => .error (.failure f) { s with program }

def use (lib : Library) (unit : String → String → Compile Unit) (name : String) (span : Span) :
    Compile Unit := do
  let fail (p : Problem) : Compile Unit := throw (.failure ((Failure.problem p).locate span))
  if (← get).active.contains name then fail (.cyclicUse name)
  else if (← get).loaded.contains name then pure ()
  else match lib.load name with
    | .ok text => unit name text
    | .error p => fail p

/-- A unit, where `inner` processes the units that it uses. -/
def unitOver (lib : Library) (targets : List Target) (inner : String → String → Compile Unit)
    (name text : String) : Compile Unit := do
  let chunk ← modifyGet fun s =>
    let (chunk, sources) := s.sources.add name text
    (chunk, { s with sources })
  let parsed := Script.parse chunk text
  if !parsed.issues.isEmpty then throw (.issues parsed.issues)
  modify fun s => { s with active := name :: s.active }
  parsed.result.items.forM fun i =>
    match i.kind with
    | .useModule used span => use lib inner used span
    | _ => item targets i
  modify fun s => { s with active := s.active.tail, loaded := name :: s.loaded }

def unit (lib : Library) (targets : List Target) : Nat → String → String → Compile Unit
  | 0 => fun _ _ => throw (.failure (.unsupported .depth))
  | n + 1 => unitOver lib targets (unit lib targets n)

end Session

structure Compiled where
  outputs : List (Target × Output)
  signatures : List String
  header : Bool

namespace Compiled

def text? (c : Compiled) (target : Target) : Option String :=
  (c.outputs.lookup target).map (·.text target c.header)

def targets (c : Compiled) : List Target := c.outputs.map (·.1)

end Compiled

structure Halt where
  stop : Stop
  sources : Sources

def Halt.report (h : Halt) (options : Options) : String := h.stop.report h.sources options.limit

def compile (name text : String) (lib : Library) (options : Options) : Except Halt Compiled :=
  match Program.start with
  | .error f => .error ⟨.failure f, {}⟩
  | .ok program =>
    match Session.unit lib options.targets (lib.bound + 1) name text { program } with
    | .error stop s => .error ⟨stop, s.sources⟩
    | .ok _ s =>
      .ok ⟨options.targets.map fun t => (t, s.program.output t), s.program.signatures,
        options.header⟩

end Ember
