import Ember.Decimal.Notation
import Ember.NameTable
import Ember.Syntax.Basic
import Ember.Text.Outline
import Ember.Text.Quoted

/-!
# Syntax as an outline

Names are shown by their numbers in a table.
-/
set_option autoImplicit false

namespace Ember

open Text (Outline)

namespace NameTable

def outline (t : NameTable) (name : String) : Outline :=
  .leaf ("Name(" ++ toString ((t.find? name).getD 0) ++ ")")

end NameTable

def Span.outline (s : Span) : Outline := .leaf s.text

def boolOutline (b : Bool) : Outline := .leaf (toString b)

def Ident.outline (t : NameTable) (i : Ident) : Outline :=
  .record "Ident" [("name", t.outline i.name), ("span", i.span.outline)]

def Lit.outline : Lit → Outline
  | .int v => .tuple "Int" [.leaf (toString v.toInt)]
  | .float v => .tuple "Float" [.leaf (Decimal.Number.ofDouble v).text]
  | .bool v => .tuple "Bool" [boolOutline v]

mutual

def Pat.outline (t : NameTable) : Pat → Outline
  | ⟨kind, span⟩ => .record "Pat" [("kind", kind.outline t), ("span", span.outline)]

def PatKind.outline (t : NameTable) : PatKind → Outline
  | .ignore => .leaf "Ignore"
  | .bind name mutable =>
    .record "Bind" [("name", t.outline name), ("mutable", boolOutline mutable)]
  | .lit l => .tuple "Lit" [l.outline]
  | .struct name fields rest =>
    .record "Struct" [("name", name.outline t), ("fields", .list (FieldPat.outlines t fields)),
      ("rest", boolOutline rest)]
  | .array items rest =>
    .record "Array" [("items", .list (Pat.outlines t items)), ("rest", boolOutline rest)]

def Pat.outlines (t : NameTable) : List Pat → List Outline
  | [] => []
  | p :: ps => p.outline t :: Pat.outlines t ps

def FieldPat.outlines (t : NameTable) : List FieldPat → List Outline
  | [] => []
  | ⟨name, pat⟩ :: fs =>
    .record "FieldPat" [("name", name.outline t), ("pat", pat.outline t)] ::
      FieldPat.outlines t fs

end

def StructHead.outline (t : NameTable) : StructHead → Outline
  | .named name => .tuple "Named" [name.outline t]
  | .symbol name => .tuple "Symbol" [name.outline t]

def labelOutline (t : NameTable) (label : Option Ident) : Outline :=
  .optional (label.map (·.outline t))

mutual

def Expr.outline (t : NameTable) : Expr → Outline
  | ⟨kind, span⟩ => .record "Expr" [("kind", kind.outline t), ("span", span.outline)]

def ExprKind.outline (t : NameTable) : ExprKind → Outline
  | .empty => .leaf "Empty"
  | .lit l => .tuple "Lit" [l.outline]
  | .ident name => .tuple "Ident" [t.outline name]
  | .builtin name => .tuple "Builtin" [t.outline name]
  | .param name => .tuple "Param" [t.outline name]
  | .symbol name => .tuple "Symbol" [t.outline name]
  | .binary op lhs rhs =>
    .record "Binary" [("op", .leaf op.name), ("lhs", lhs.outline t), ("rhs", rhs.outline t)]
  | .unary op operand => .record "Unary" [("op", .leaf op.name), ("operand", operand.outline t)]
  | .deriv var body => .record "Deriv" [("var", var.outline t), ("body", body.outline t)]
  | .range start stop =>
    .record "Range" [("start", Expr.optionOutline t start), ("end", Expr.optionOutline t stop)]
  | .call callee typeArgs args =>
    .record "Call" [("callee", callee.outline t), ("type_args", .list (TypeExpr.outlines t typeArgs)),
      ("args", .list (Expr.outlines t args))]
  | .methodCall receiver method args =>
    .record "MethodCall" [("receiver", receiver.outline t), ("method", method.outline t),
      ("args", .list (Expr.outlines t args))]
  | .field base field => .record "Field" [("base", base.outline t), ("field", field.outline t)]
  | .index base i => .record "Index" [("base", base.outline t), ("index", i.outline t)]
  | .structLit head fields =>
    .record "StructLit" [("head", head.outline t), ("fields", .list (FieldInit.outlines t fields))]
  | .array items => .tuple "Array" [.list (Expr.outlines t items)]
  | .block b => .tuple "Block" [b.outline t]
  | .ifElse cond thenBlock elseBranch =>
    .record "If" [("cond", cond.outline t), ("then_block", thenBlock.outline t),
      ("else_branch", Expr.optionOutline t elseBranch)]
  | .matchArms subject arms =>
    .record "Match" [("subject", subject.outline t), ("arms", .list (MatchArm.outlines t arms))]
  | .forLoop label pat iter body =>
    .record "For" [("label", labelOutline t label), ("pat", pat.outline t),
      ("iter", iter.outline t), ("body", body.outline t)]
  | .source b => .tuple "Source" [b.outline t]

def Expr.optionOutline (t : NameTable) : Option Expr → Outline
  | none => .optional none
  | some e => .optional (some (e.outline t))

def Expr.outlines (t : NameTable) : List Expr → List Outline
  | [] => []
  | e :: es => e.outline t :: Expr.outlines t es

def FieldInit.outlines (t : NameTable) : List FieldInit → List Outline
  | [] => []
  | ⟨name, value⟩ :: fs =>
    .record "FieldInit" [("name", name.outline t), ("value", value.outline t)] ::
      FieldInit.outlines t fs

def MatchArm.outlines (t : NameTable) : List MatchArm → List Outline
  | [] => []
  | ⟨pat, body, span⟩ :: as =>
    .record "MatchArm" [("pat", pat.outline t), ("body", body.outline t), ("span", span.outline)] ::
      MatchArm.outlines t as

def SourceBlock.outline (t : NameTable) : SourceBlock → Outline
  | ⟨target, parts⟩ =>
    .record "SourceBlock" [("target", labelOutline t target),
      ("parts", .list (SourcePart.outlines t parts))]

def SourcePart.outlines (t : NameTable) : List SourcePart → List Outline
  | [] => []
  | .text s :: ps => .tuple "Text" [.leaf (Text.quoted s)] :: SourcePart.outlines t ps
  | .interp e :: ps => .tuple "Interp" [e.outline t] :: SourcePart.outlines t ps

def Block.outline (t : NameTable) : Block → Outline
  | ⟨stmts, tail, span⟩ =>
    .record "Block" [("stmts", .list (Stmt.outlines t stmts)),
      ("tail", Expr.optionOutline t tail), ("span", span.outline)]

def Stmt.outlines (t : NameTable) : List Stmt → List Outline
  | [] => []
  | ⟨kind, span⟩ :: ss =>
    .record "Stmt" [("kind", kind.outline t), ("span", span.outline)] :: Stmt.outlines t ss

def StmtKind.outline (t : NameTable) : StmtKind → Outline
  | .empty => .leaf "Empty"
  | .letBind pat ty value =>
    .record "Let" [("pat", pat.outline t), ("ty", TypeExpr.optionOutline t ty),
      ("value", value.outline t)]
  | .assign op target value =>
    .record "Assign" [("op", .leaf op.name), ("target", target.outline t),
      ("value", value.outline t)]
  | .expr e => .tuple "Expr" [e.outline t]
  | .assert cond => .tuple "Assert" [cond.outline t]
  | .breakLoop label => .tuple "Break" [labelOutline t label]
  | .continueLoop label => .tuple "Continue" [labelOutline t label]

def TypeExpr.outline (t : NameTable) : TypeExpr → Outline
  | ⟨kind, span⟩ => .record "Ty" [("kind", kind.outline t), ("span", span.outline)]

def TypeKind.outline (t : NameTable) : TypeKind → Outline
  | .empty => .leaf "Empty"
  | .named name args =>
    .record "Named" [("name", name.outline t), ("args", .list (TypeExpr.outlines t args))]
  | .array of len => .record "Array" [("of", of.outline t), ("len", len.outline t)]
  | .alt members => .tuple "Alt" [.list (TypeExpr.outlines t members)]

def TypeExpr.outlines (t : NameTable) : List TypeExpr → List Outline
  | [] => []
  | ty :: tys => ty.outline t :: TypeExpr.outlines t tys

def TypeExpr.optionOutline (t : NameTable) : Option TypeExpr → Outline
  | none => .optional none
  | some ty => .optional (some (ty.outline t))

end

def FnName.outline (t : NameTable) : FnName → Outline
  | .ident name => .tuple "Ident" [name.outline t]
  | .operator op span => .record "Operator" [("op", .leaf op.name), ("span", span.outline)]

def typedOutline (t : NameTable) (what : String) (name : Ident) (ty : TypeExpr) : Outline :=
  .record what [("name", name.outline t), ("ty", ty.outline t)]

def FnDecl.outline (t : NameTable) (d : FnDecl) : Outline :=
  .record "FnDecl" [("name", d.name.outline t), ("generics", .list (d.generics.map (·.outline t))),
    ("params", .list (d.params.map fun p => typedOutline t "FnParam" p.name p.ty)),
    ("ret", TypeExpr.optionOutline t d.ret), ("body", d.body.outline t)]

def StructDecl.outline (t : NameTable) (d : StructDecl) : Outline :=
  .record "StructDecl" [("name", d.name.outline t),
    ("fields", .list (d.fields.map fun f => typedOutline t "FieldDecl" f.name f.ty)),
    ("span", d.span.outline)]

def ItemKind.outline (t : NameTable) : ItemKind → Outline
  | .empty => .leaf "Empty"
  | .useModule name span =>
    .tuple "Use" [.record "UseDecl" [("name", .leaf (Text.quoted name)),
      ("name_span", span.outline)]]
  | .fn d => .tuple "Fn" [d.outline t]
  | .structs g =>
    .tuple "Struct" [.record "StructGroup" [("matrix", boolOutline g.matrix),
      ("variants", .list (g.variants.map (·.outline t)))]]
  | .const name ty value =>
    .tuple "Const" [.record "ConstDecl" [("name", name.outline t),
      ("ty", TypeExpr.optionOutline t ty), ("value", value.outline t)]]
  | .param name ty => .tuple "Param" [typedOutline t "ParamDecl" name ty]
  | .assert cond => .tuple "Assert" [cond.outline t]

def Item.outline (t : NameTable) (i : Item) : Outline :=
  .record "Item" [("kind", i.kind.outline t), ("span", i.span.outline)]

def Script.outline (t : NameTable) (s : Script) : Outline :=
  .record "Script" [("items", .list (s.items.map (·.outline t)))]

end Ember
