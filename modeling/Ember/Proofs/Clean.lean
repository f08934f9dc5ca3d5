import Ember.Derivative
import Ember.Proofs.Ends

/-!
# Syntax without placeholders

A tree is clean if nothing in it stands for something that was missing. Derivatives of clean
expressions are clean.
-/

set_option autoImplicit false

namespace Ember

mutual

inductive Expr.Clean : Expr → Prop
  | lit {l : Lit} {span : Span} : Expr.Clean ⟨.lit l, span⟩
  | ident {name : String} {span : Span} : Expr.Clean ⟨.ident name, span⟩
  | builtin {name : String} {span : Span} : Expr.Clean ⟨.builtin name, span⟩
  | param {name : String} {span : Span} : Expr.Clean ⟨.param name, span⟩
  | symbol {name : String} {span : Span} : Expr.Clean ⟨.symbol name, span⟩
  | binary {op : BinaryOp} {a b : Expr} {span : Span} : a.Clean → b.Clean →
      Expr.Clean ⟨.binary op a b, span⟩
  | unary {op : UnaryOp} {a : Expr} {span : Span} : a.Clean → Expr.Clean ⟨.unary op a, span⟩
  | deriv {x : Ident} {e : Expr} {span : Span} : e.Clean → Expr.Clean ⟨.deriv x e, span⟩
  | range {a b : Option Expr} {span : Span} : (∀ e ∈ a, e.Clean) → (∀ e ∈ b, e.Clean) →
      Expr.Clean ⟨.range a b, span⟩
  | call {callee : Expr} {types : List TypeExpr} {args : List Expr} {span : Span} :
      callee.Clean → (∀ t ∈ types, t.Clean) → (∀ e ∈ args, e.Clean) →
      Expr.Clean ⟨.call callee types args, span⟩
  | methodCall {receiver : Expr} {method : Ident} {args : List Expr} {span : Span} :
      receiver.Clean → (∀ e ∈ args, e.Clean) → Expr.Clean ⟨.methodCall receiver method args, span⟩
  | field {base : Expr} {name : Ident} {span : Span} : base.Clean →
      Expr.Clean ⟨.field base name, span⟩
  | index {base i : Expr} {span : Span} : base.Clean → i.Clean → Expr.Clean ⟨.index base i, span⟩
  | structLit {head : StructHead} {inits : List FieldInit} {span : Span} :
      (∀ i ∈ inits, i.value.Clean) → Expr.Clean ⟨.structLit head inits, span⟩
  | array {items : List Expr} {span : Span} : (∀ e ∈ items, e.Clean) →
      Expr.Clean ⟨.array items, span⟩
  | block {b : Block} {span : Span} : b.Clean → Expr.Clean ⟨.block b, span⟩
  | ifElse {cond : Expr} {yes : Block} {no : Option Expr} {span : Span} : cond.Clean →
      yes.Clean → (∀ e ∈ no, e.Clean) → Expr.Clean ⟨.ifElse cond yes no, span⟩
  | matchArms {subject : Expr} {arms : List MatchArm} {span : Span} : subject.Clean →
      (∀ a ∈ arms, a.body.Clean) → Expr.Clean ⟨.matchArms subject arms, span⟩
  | forLoop {label : Option Ident} {pat : Pat} {iter : Expr} {body : Block} {span : Span} :
      iter.Clean → body.Clean → Expr.Clean ⟨.forLoop label pat iter body, span⟩
  | source {b : SourceBlock} {span : Span} : b.Clean → Expr.Clean ⟨.source b, span⟩

inductive SourceBlock.Clean : SourceBlock → Prop
  | mk {target : Option Ident} {parts : List SourcePart} :
      (∀ e, SourcePart.interp e ∈ parts → e.Clean) → SourceBlock.Clean ⟨target, parts⟩

inductive Block.Clean : Block → Prop
  | mk {stmts : List Stmt} {tail : Option Expr} {span : Span} : (∀ s ∈ stmts, s.Clean) →
      (∀ e ∈ tail, e.Clean) → Block.Clean ⟨stmts, tail, span⟩

inductive Stmt.Clean : Stmt → Prop
  | empty {span : Span} : Stmt.Clean ⟨.empty, span⟩
  | letBind {pat : Pat} {ty : Option TypeExpr} {value : Expr} {span : Span} :
      (∀ t ∈ ty, t.Clean) → value.Clean → Stmt.Clean ⟨.letBind pat ty value, span⟩
  | assign {op : AssignOp} {target value : Expr} {span : Span} : target.Clean → value.Clean →
      Stmt.Clean ⟨.assign op target value, span⟩
  | expr {e : Expr} {span : Span} : e.Clean → Stmt.Clean ⟨.expr e, span⟩
  | assert {cond : Expr} {span : Span} : cond.Clean → Stmt.Clean ⟨.assert cond, span⟩
  | breakLoop {label : Option Ident} {span : Span} : Stmt.Clean ⟨.breakLoop label, span⟩
  | continueLoop {label : Option Ident} {span : Span} : Stmt.Clean ⟨.continueLoop label, span⟩

inductive TypeExpr.Clean : TypeExpr → Prop
  | named {name : Ident} {args : List TypeExpr} {span : Span} : (∀ t ∈ args, t.Clean) →
      TypeExpr.Clean ⟨.named name args, span⟩
  | array {of : TypeExpr} {len : Expr} {span : Span} : of.Clean → len.Clean →
      TypeExpr.Clean ⟨.array of len, span⟩
  | alt {members : List TypeExpr} {span : Span} : members ≠ [] → (∀ t ∈ members, t.Clean) →
      TypeExpr.Clean ⟨.alt members, span⟩

end

structure FnDecl.Clean (d : FnDecl) : Prop where
  params : ∀ p ∈ d.params, p.ty.Clean
  ret : ∀ t ∈ d.ret, t.Clean
  body : d.body.Clean

inductive Item.Clean : Item → Prop
  | fn {d : FnDecl} {span : Span} : d.Clean → Item.Clean ⟨.fn d, span⟩
  | structs {g : StructGroup} {span : Span} :
      (∀ v ∈ g.variants, ∀ f ∈ v.fields, f.ty.Clean) → Item.Clean ⟨.structs g, span⟩
  | const {name : Ident} {ty : Option TypeExpr} {value : Expr} {span : Span} :
      (∀ t ∈ ty, t.Clean) → value.Clean → Item.Clean ⟨.const name ty value, span⟩
  | param {name : Ident} {ty : TypeExpr} {span : Span} : ty.Clean →
      Item.Clean ⟨.param name ty, span⟩
  | assert {cond : Expr} {span : Span} : cond.Clean → Item.Clean ⟨.assert cond, span⟩
  | useModule {name : String} {at_ span : Span} : Item.Clean ⟨.useModule name at_, span⟩

namespace Expr

/-! ## Derivatives -/

theorem clean_number (v : Float) (span : Span) : (number v span).Clean := .lit

theorem Clean.binaryOf {op : BinaryOp} {a b : Expr} (ha : a.Clean) (hb : b.Clean) :
    (Expr.binary op a b).Clean := .binary ha hb

theorem Clean.negative {a : Expr} (ha : a.Clean) : (Expr.negative a).Clean := by
  unfold Expr.negative
  split
  · exact clean_number _ _
  · exact .unary ha

theorem Clean.sum {a b : Expr} (ha : a.Clean) (hb : b.Clean) : (Expr.sum a b).Clean := by
  unfold Expr.sum
  split_ifs
  · exact hb
  · exact ha
  · exact ha.binaryOf hb

theorem Clean.difference {a b : Expr} (ha : a.Clean) (hb : b.Clean) : (Expr.difference a b).Clean := by
  unfold Expr.difference
  split_ifs
  · exact ha
  · exact hb.negative
  · exact ha.binaryOf hb

theorem Clean.product {a b : Expr} (ha : a.Clean) (hb : b.Clean) : (Expr.product a b).Clean := by
  unfold Expr.product
  split_ifs
  · exact clean_number _ _
  · exact hb
  · exact ha
  · exact ha.binaryOf hb

theorem Clean.quotient {a b : Expr} (ha : a.Clean) (hb : b.Clean) : (Expr.quotient a b).Clean := by
  unfold Expr.quotient
  split_ifs
  · exact ha
  · exact ha.binaryOf hb

theorem Clean.callBuiltin {a : Expr} (name : String) (ha : a.Clean) :
    (Expr.callBuiltin name a).Clean := .call .builtin (by simp) (by simpa using ha)

theorem Clean.chain {u du : Expr} (hu : u.Clean) (hdu : du.Clean) (name : String) (span : Span) :
    Gives (Expr.chain name u du span) Expr.Clean fun f => ¬ f.IsDefect := by
  unfold Expr.chain
  split_ifs
  · exact (hu.callBuiltin _).product hdu
  · exact (hu.callBuiltin _).negative.product hdu
  · exact (hu.callBuiltin _).product hdu
  · exact hdu.quotient ((clean_number _ _).product (hu.callBuiltin _))
  · exact hdu.quotient hu
  · simp [Gives, Located.IsDefect, Failure.unsupported]

/-- Derivatives of clean expressions are clean. -/
theorem Clean.derivative {e : Expr} (clean : e.Clean) (x : String) :
    Gives (e.derivative x) Expr.Clean fun f => ¬ f.IsDefect := by
  fun_induction Expr.derivative x e
  case case1 | case2 | case3 | case4 | case5 => exact clean_number _ _
  case case6 ih =>
    cases clean with
    | unary ha => exact .bind ((ih ha).imp fun da hda => hda.negative)
  case case7 iha ihb =>
    cases clean with
    | binary ha hb =>
      exact .bind ((iha ha).imp fun da hda => .bind ((ihb hb).imp fun db hdb => hda.sum hdb))
  case case8 iha ihb =>
    cases clean with
    | binary ha hb =>
      exact .bind ((iha ha).imp fun da hda => .bind ((ihb hb).imp fun db hdb => hda.difference hdb))
  case case9 iha ihb =>
    cases clean with
    | binary ha hb =>
      exact .bind ((iha ha).imp fun da hda => .bind ((ihb hb).imp fun db hdb =>
        (hda.product hb).sum (ha.product hdb)))
  case case10 iha ihb =>
    cases clean with
    | binary ha hb =>
      exact .bind ((iha ha).imp fun da hda => .bind ((ihb hb).imp fun db hdb =>
        ((hda.product hb).difference (ha.product hdb)).quotient (hb.product hb)))
  case case12 ih =>
    cases clean with
    | binary ha hb =>
      exact .bind ((ih ha).imp fun da hda =>
        (hb.product (ha.binaryOf (hb.difference (clean_number _ _)))).product hda)
  case case13 ih =>
    cases clean with
    | call _ _ args =>
      have hu := args _ (List.mem_singleton_self _)
      exact .bind ((ih hu).imp fun du hdu => hu.chain hdu _ _)
  case case15 ih =>
    cases clean with
    | block inner =>
      cases inner with
      | mk _ tail => exact ih (tail _ rfl)
  all_goals simp [Gives, Located.IsDefect, Failure.unsupported]

end Expr
end Ember
