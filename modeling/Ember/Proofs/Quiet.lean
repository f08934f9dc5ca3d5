import Ember.Proofs.Placeholders.Rules

/-!
# Texts without issues

Every gap comes with a report, so what a text without issues stands for has none. What has no gap is
clean.
-/

set_option autoImplicit false

namespace Ember

mutual

theorem Expr.clean_of_gaps : ∀ e : Expr, e.gaps = 0 → e.Clean
  | ⟨.empty, _⟩, whole => nomatch whole
  | ⟨.lit _, _⟩, _ => .lit
  | ⟨.ident _, _⟩, _ => .ident
  | ⟨.builtin _, _⟩, _ => .builtin
  | ⟨.param _, _⟩, _ => .param
  | ⟨.symbol _, _⟩, _ => .symbol
  | ⟨.binary _ a b, _⟩, whole =>
    have parts := Nat.add_eq_zero_iff.mp whole
    .binary (a.clean_of_gaps parts.1) (b.clean_of_gaps parts.2)
  | ⟨.unary _ e, _⟩, whole => .unary (e.clean_of_gaps whole)
  | ⟨.deriv _ e, _⟩, whole => .deriv (e.clean_of_gaps whole)
  | ⟨.field e _, _⟩, whole => .field (e.clean_of_gaps whole)
  | ⟨.range a b, _⟩, whole =>
    have parts := Nat.add_eq_zero_iff.mp whole
    .range (Expr.option_clean a parts.1) (Expr.option_clean b parts.2)
  | ⟨.call callee types args, _⟩, whole =>
    have parts := Nat.add_eq_zero_iff.mp whole
    have front := Nat.add_eq_zero_iff.mp parts.1
    .call (callee.clean_of_gaps front.1) (TypeExpr.list_clean types front.2)
      (Expr.list_clean args parts.2)
  | ⟨.methodCall receiver _ args, _⟩, whole =>
    have parts := Nat.add_eq_zero_iff.mp whole
    .methodCall (receiver.clean_of_gaps parts.1) (Expr.list_clean args parts.2)
  | ⟨.index base i, _⟩, whole =>
    have parts := Nat.add_eq_zero_iff.mp whole
    .index (base.clean_of_gaps parts.1) (i.clean_of_gaps parts.2)
  | ⟨.structLit _ fields, _⟩, whole => .structLit (FieldInit.list_clean fields whole)
  | ⟨.array items, _⟩, whole => .array (Expr.list_clean items whole)
  | ⟨.block b, _⟩, whole => .block (b.clean_of_gaps whole)
  | ⟨.ifElse cond yes no, _⟩, whole =>
    have parts := Nat.add_eq_zero_iff.mp whole
    have front := Nat.add_eq_zero_iff.mp parts.1
    .ifElse (cond.clean_of_gaps front.1) (yes.clean_of_gaps front.2)
      (Expr.option_clean no parts.2)
  | ⟨.matchArms subject arms, _⟩, whole =>
    have parts := Nat.add_eq_zero_iff.mp whole
    .matchArms (subject.clean_of_gaps parts.1) (MatchArm.list_clean arms parts.2)
  | ⟨.forLoop _ _ iter body, _⟩, whole =>
    have parts := Nat.add_eq_zero_iff.mp whole
    .forLoop (iter.clean_of_gaps parts.1) (body.clean_of_gaps parts.2)
  | ⟨.source ⟨_, ps⟩, _⟩, whole => .source (.mk (SourcePart.list_clean ps whole))

theorem Expr.option_clean : ∀ o, Expr.gapsOfOption o = 0 → ∀ e ∈ o, e.Clean
  | none, _, _, member => nomatch member
  | some e, whole, _, member => Option.some.inj member ▸ e.clean_of_gaps whole

theorem Expr.list_clean : ∀ es, Expr.gapsOfList es = 0 → ∀ e ∈ es, e.Clean
  | [], _ => by simp
  | e :: es, whole =>
    have parts := Nat.add_eq_zero_iff.mp whole
    List.forall_mem_cons.mpr ⟨e.clean_of_gaps parts.1, Expr.list_clean es parts.2⟩

theorem FieldInit.list_clean : ∀ fs, FieldInit.gapsOfList fs = 0 → ∀ f ∈ fs, f.value.Clean
  | [], _ => by simp
  | ⟨_, value⟩ :: fs, whole =>
    have parts := Nat.add_eq_zero_iff.mp whole
    List.forall_mem_cons.mpr ⟨value.clean_of_gaps parts.1, FieldInit.list_clean fs parts.2⟩

theorem MatchArm.list_clean : ∀ as, MatchArm.gapsOfList as = 0 → ∀ a ∈ as, a.body.Clean
  | [], _ => by simp
  | ⟨_, body, _⟩ :: as, whole =>
    have parts := Nat.add_eq_zero_iff.mp whole
    List.forall_mem_cons.mpr ⟨body.clean_of_gaps parts.1, MatchArm.list_clean as parts.2⟩

theorem SourcePart.list_clean : ∀ ps, SourcePart.gapsOfList ps = 0 →
    ∀ e, SourcePart.interp e ∈ ps → e.Clean
  | [], _ => by simp
  | .text _ :: ps, whole => by simpa using SourcePart.list_clean ps whole
  | .interp e :: ps, whole => by
    have parts := Nat.add_eq_zero_iff.mp whole
    have first := e.clean_of_gaps parts.1
    have rest := SourcePart.list_clean ps parts.2
    intro e' member
    rcases List.mem_cons.mp member with same | member
    · cases same
      exact first
    · exact rest e' member

theorem Block.clean_of_gaps : ∀ b : Block, b.gaps = 0 → b.Clean
  | ⟨stmts, tail, _⟩, whole =>
    have parts := Nat.add_eq_zero_iff.mp whole
    .mk (Stmt.list_clean stmts parts.1) (Expr.option_clean tail parts.2)

theorem Stmt.list_clean : ∀ ss, Stmt.gapsOfList ss = 0 → ∀ s ∈ ss, s.Clean
  | [], _ => by simp
  | ⟨kind, span⟩ :: ss, whole =>
    have parts := Nat.add_eq_zero_iff.mp whole
    List.forall_mem_cons.mpr ⟨StmtKind.clean_of_gaps kind parts.1 span,
      Stmt.list_clean ss parts.2⟩

theorem StmtKind.clean_of_gaps : ∀ k : StmtKind, k.gaps = 0 → ∀ span, Stmt.Clean ⟨k, span⟩
  | .empty, _, _ => .empty
  | .breakLoop _, _, _ => .breakLoop
  | .continueLoop _, _, _ => .continueLoop
  | .letBind _ ty value, whole, _ =>
    have parts := Nat.add_eq_zero_iff.mp whole
    .letBind (TypeExpr.option_clean ty parts.1) (value.clean_of_gaps parts.2)
  | .assign _ target value, whole, _ =>
    have parts := Nat.add_eq_zero_iff.mp whole
    .assign (target.clean_of_gaps parts.1) (value.clean_of_gaps parts.2)
  | .expr e, whole, _ => .expr (e.clean_of_gaps whole)
  | .assert e, whole, _ => .assert (e.clean_of_gaps whole)

theorem TypeExpr.clean_of_gaps : ∀ t : TypeExpr, t.gaps = 0 → t.Clean
  | ⟨.empty, _⟩, whole => nomatch whole
  | ⟨.named _ args, _⟩, whole => .named (TypeExpr.list_clean args whole)
  | ⟨.array of len, _⟩, whole =>
    have parts := Nat.add_eq_zero_iff.mp whole
    .array (of.clean_of_gaps parts.1) (len.clean_of_gaps parts.2)
  | ⟨.alt [], _⟩, whole => nomatch whole
  | ⟨.alt (t :: ts), _⟩, whole =>
    have parts := Nat.add_eq_zero_iff.mp whole
    .alt (by simp) (List.forall_mem_cons.mpr
      ⟨t.clean_of_gaps parts.1, TypeExpr.list_clean ts parts.2⟩)

theorem TypeExpr.list_clean : ∀ ts, TypeExpr.gapsOfList ts = 0 → ∀ t ∈ ts, t.Clean
  | [], _ => by simp
  | t :: ts, whole =>
    have parts := Nat.add_eq_zero_iff.mp whole
    List.forall_mem_cons.mpr ⟨t.clean_of_gaps parts.1, TypeExpr.list_clean ts parts.2⟩

theorem TypeExpr.option_clean : ∀ o, TypeExpr.gapsOfOption o = 0 → ∀ t ∈ o, t.Clean
  | none, _, _, member => nomatch member
  | some t, whole, _, member => Option.some.inj member ▸ t.clean_of_gaps whole

end

theorem FnDecl.clean_of_gaps {d : FnDecl} (none : d.gaps = 0) : d.Clean := by
  obtain ⟨front, body⟩ := Nat.add_eq_zero_iff.mp none
  obtain ⟨params, ret⟩ := Nat.add_eq_zero_iff.mp front
  refine ⟨fun p member => p.ty.clean_of_gaps ?_, TypeExpr.option_clean d.ret ret,
    d.body.clean_of_gaps body⟩
  exact List.sum_eq_zero_iff.mp params _ (List.mem_map_of_mem member)

theorem Item.clean_of_gaps : ∀ i : Item, i.kind.gaps = 0 → i.Clean
  | ⟨.empty, _⟩, whole => nomatch whole
  | ⟨.useModule _ _, _⟩, _ => .useModule
  | ⟨.fn d, _⟩, whole => .fn (FnDecl.clean_of_gaps whole)
  | ⟨.structs group, _⟩, whole => by
    refine .structs fun v variant f field => f.ty.clean_of_gaps ?_
    have own : v.gaps = 0 := List.sum_eq_zero_iff.mp whole _ (List.mem_map_of_mem variant)
    exact List.sum_eq_zero_iff.mp own _ (List.mem_map_of_mem field)
  | ⟨.const _ ty value, _⟩, whole =>
    have parts := Nat.add_eq_zero_iff.mp whole
    .const (TypeExpr.option_clean ty parts.1) (value.clean_of_gaps parts.2)
  | ⟨.param _ ty, _⟩, whole => .param (ty.clean_of_gaps whole)
  | ⟨.assert cond, _⟩, whole => .assert (cond.clean_of_gaps whole)

/-- A script without issues is clean. -/
theorem Script.parse_clean {chunk : Nat} {text : String}
    (none : (Script.parse chunk text).issues = []) :
    ∀ i ∈ (Script.parse chunk text).result.items, i.Clean := by
  intro i member
  refine i.clean_of_gaps ?_
  exact List.sum_eq_zero_iff.mp (gaps_of_quiet none) _ (List.mem_map_of_mem member)

end Ember
