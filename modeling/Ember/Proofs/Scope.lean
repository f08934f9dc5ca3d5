import Ember.Proofs.Steady

/-!
# Scopes are left as they were found

Lowering opens blocks, loops, calls and other function bodies, and may fail inside of any of them.
However an expression ends, the blocks around it, the loops, the types of a template and the calls
that are being computed are what they were, and its own block has only got more lines.

What was entered is dropped at the end. That this gives back what was there before rests on the same
fact about what runs inside.
-/

set_option autoImplicit false

namespace Ember

/-- The same blocks with the same names, loops, types of a template and calls that are computed.
The innermost block may have got lines. -/
structure Emission.SameScope (s t : Emission) : Prop where
  outer : t.frame.outer = s.frame.outer
  locals : t.frame.level.locals = s.frame.level.locals
  lines : s.frame.level.lines <+: t.frame.level.lines
  loops : t.frame.loops = s.frame.loops
  typeParams : t.frame.typeParams = s.frame.typeParams
  constDepth : t.constDepth = s.constDepth

theorem Emission.Before.sameScope {s t : Emission} (h : s.Before true t) : s.SameScope t :=
  ⟨h.outer, h.locals rfl, h.lines, h.loops, h.typeParams, h.constDepth⟩

/-- However an expression ends, in whatever state and to whatever depth it is lowered, it leaves the
scope as it was. -/
theorem Lowering.expr_sameScope (target : Target) (depth : Nat) (e : Expr) (s : Emission) :
    Ends ((Lowering.ofDepth target depth).expr e) s
      (fun _ t => s.SameScope t) (fun _ t => s.SameScope t) := by
  have steady : Steady true ((Lowering.ofDepth target depth).expr e) := .expr e
  exact (steady s).mono (fun _ _ => Emission.Before.sameScope) fun _ _ => Emission.Before.sameScope

end Ember
