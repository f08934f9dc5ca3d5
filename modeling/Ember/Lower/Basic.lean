import Ember.Emit.Broadcast
import Ember.Emit.Project

/-!
# Lowering syntax to values

Expressions and blocks hold each other, and calls lead from one to the body of another function.
The rules of lowering get what they need of each other from a `Lowering`.
-/
set_option autoImplicit false

namespace Ember

abbrev Side := Value × List Line

/-- How expressions and blocks are lowered for a target, and what is left to them. -/
structure Lowering where
  target : Target
  expr : Expr → Emit Value
  /-- Lowers statements into the current block, and then the value of the block. -/
  block : Block → Emit Value
  /-- The value of two sides under a condition. -/
  join : (cond : Value) → (yes no : Side) → (what : String) → Emit Value
  /-- Calls a declared function. -/
  user : (f : UserFn) → (args : List Value) → (typeArgs : List Ty) → Span → Emit Value

end Ember
