import Ember.Decimal.Read
import Ember.Target

/-!
# Options

What a compilation is to produce, and the flags that say so.
-/
set_option autoImplicit false

namespace Ember

structure Options where
  /-- In the order of their output. -/
  targets : List Target := Target.all
  /-- How many issues are shown. -/
  limit : Nat := 20
  /-- Whether GLSL starts with its version. -/
  header : Bool := true
  deriving DecidableEq, Inhabited

inductive OptionError where
  | unknownTarget (name : String)
  | badLimit (text : String)
  | unknown (flag : String)
  deriving DecidableEq, Inhabited

def OptionError.message : OptionError → String
  | .unknownTarget name => s!"unknown target `{name}` (expected js, glsl or both)"
  | .badLimit text => s!"`--error-limit` needs a positive number, found `{text}`"
  | .unknown flag => s!"unknown option `{flag}`"

namespace Options

def after? (start : List Char) (text : List Char) : Option (List Char) :=
  if start.isPrefixOf text then some (text.drop start.length) else none

/-- Digits after an optional plus sign, up to what 64 bits hold. -/
def limit? (cs : List Char) : Option Nat :=
  let digits := match cs with
    | '+' :: rest => rest
    | _ => cs
  (Decimal.natural? 10 digits).filter fun n => 0 < n && n < UInt64.size

/-- The options after a flag; nothing if the argument is no flag. -/
def apply (o : Options) (arg : String) : Except OptionError (Option Options) :=
  let cs := arg.toList
  if (after? "--".toList cs).isNone then .ok none
  else if let some name := after? "--target=".toList cs then
    let name := String.ofList name
    if name = "both" then .ok (some { o with targets := Target.all })
    else match Target.ofName? name with
      | some t => .ok (some { o with targets := [t] })
      | none => .error (.unknownTarget name)
  else if let some text := after? "--error-limit=".toList cs then
    match limit? text with
    | some n => .ok (some { o with limit := n })
    | none => .error (.badLimit (String.ofList text))
  else if arg = "--no-header" then .ok (some { o with header := false })
  else .error (.unknown arg)

end Options
end Ember
