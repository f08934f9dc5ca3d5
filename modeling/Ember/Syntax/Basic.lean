import Ember.Span
import Ember.Syntax.Operator

/-!
# Syntax trees

Every node has a span. Reading never leaves a child out: where something was missing there is a
placeholder (`empty`, or the pattern `ignore`), and an issue that says so.
-/
set_option autoImplicit false

namespace Ember

structure Ident where
  name : String
  span : Span
  deriving DecidableEq, Inhabited

inductive Lit where
  | int (v : Int32)
  | float (v : Float)
  | bool (v : Bool)
  deriving Inhabited

mutual

structure Pat where
  kind : PatKind
  span : Span

inductive PatKind where
  | ignore
  | bind (name : String) (mutable : Bool)
  | lit (l : Lit)
  /-- `Name { field: pattern, .. }` -/
  | struct (name : Ident) (fields : List FieldPat) (rest : Bool)
  /-- `[pattern, ..]` -/
  | array (items : List Pat) (rest : Bool)

structure FieldPat where
  name : Ident
  pat : Pat

end

instance : Inhabited Pat := ⟨⟨.ignore, default⟩⟩

mutual

def Pat.isIrrefutable : Pat → Bool
  | ⟨.ignore, _⟩ | ⟨.bind _ _, _⟩ => true
  | ⟨.lit _, _⟩ => false
  | ⟨.struct _ fields _, _⟩ => FieldPat.allIrrefutable fields
  | ⟨.array items _, _⟩ => Pat.allIrrefutable items

def Pat.allIrrefutable : List Pat → Bool
  | [] => true
  | p :: ps => p.isIrrefutable && Pat.allIrrefutable ps

def FieldPat.allIrrefutable : List FieldPat → Bool
  | [] => true
  | ⟨_, p⟩ :: fs => p.isIrrefutable && FieldPat.allIrrefutable fs

end

/-- What a struct literal builds: a declared struct, or one known by a symbol and its fields. -/
inductive StructHead where
  | named (name : Ident)
  | symbol (name : Ident)
  deriving DecidableEq, Inhabited

mutual

structure Expr where
  kind : ExprKind
  span : Span

inductive ExprKind where
  | empty
  | lit (l : Lit)
  | ident (name : String)
  /-- `@name` -/
  | builtin (name : String)
  /-- `$name` -/
  | param (name : String)
  /-- `:name` -/
  | symbol (name : String)
  | binary (op : BinaryOp) (lhs rhs : Expr)
  | unary (op : UnaryOp) (operand : Expr)
  /-- `d/dx body` -/
  | deriv (var : Ident) (body : Expr)
  /-- `a..b`, where either side may be missing. -/
  | range (start stop : Option Expr)
  | call (callee : Expr) (typeArgs : List TypeExpr) (args : List Expr)
  | methodCall (receiver : Expr) (method : Ident) (args : List Expr)
  | field (base : Expr) (field : Ident)
  | index (base index : Expr)
  | structLit (head : StructHead) (fields : List FieldInit)
  | array (items : List Expr)
  | block (b : Block)
  | ifElse (cond : Expr) (thenBlock : Block) (elseBranch : Option Expr)
  | matchArms (subject : Expr) (arms : List MatchArm)
  | forLoop (label : Option Ident) (pat : Pat) (iter : Expr) (body : Block)
  | source (b : SourceBlock)

structure FieldInit where
  name : Ident
  value : Expr

structure MatchArm where
  pat : Pat
  body : Expr
  span : Span

/-- Foreign text for one target, or for every target that has none of its own. -/
structure SourceBlock where
  target : Option Ident
  parts : List SourcePart

inductive SourcePart where
  | text (t : String)
  | interp (e : Expr)

structure Block where
  stmts : List Stmt
  tail : Option Expr
  span : Span

structure Stmt where
  kind : StmtKind
  span : Span

inductive StmtKind where
  | empty
  | letBind (pat : Pat) (ty : Option TypeExpr) (value : Expr)
  | assign (op : AssignOp) (target value : Expr)
  | expr (e : Expr)
  | assert (cond : Expr)
  | breakLoop (label : Option Ident)
  | continueLoop (label : Option Ident)

structure TypeExpr where
  kind : TypeKind
  span : Span

inductive TypeKind where
  | empty
  | named (name : Ident) (args : List TypeExpr)
  /-- `[of; len]` -/
  | array (of : TypeExpr) (len : Expr)
  /-- `A | B` -/
  | alt (members : List TypeExpr)

end

instance : Inhabited Expr := ⟨⟨.empty, default⟩⟩
instance : Inhabited TypeExpr := ⟨⟨.empty, default⟩⟩
instance : Inhabited Block := ⟨⟨[], none, default⟩⟩

namespace Expr

def missing (span : Span) : Expr := ⟨.empty, span⟩

/-- Expressions that end a statement without a semicolon. -/
def isBlockLike (e : Expr) : Bool :=
  match e.kind with
  | .block _ | .ifElse .. | .matchArms .. | .forLoop .. | .source _ => true
  | _ => false

end Expr

structure FnParam where
  name : Ident
  ty : TypeExpr

inductive FnName where
  | ident (name : Ident)
  | operator (op : Operator) (span : Span)

/-- A function; with type parameters it is a template. Without a result type it gives no value. -/
structure FnDecl where
  name : FnName
  generics : List Ident
  params : List FnParam
  ret : Option TypeExpr
  body : Block

structure FieldDecl where
  name : Ident
  ty : TypeExpr

structure StructDecl where
  name : Ident
  fields : List FieldDecl
  span : Span

/-- Structs declared together, which may stand for each other. -/
structure StructGroup where
  matrix : Bool
  variants : List StructDecl

inductive ItemKind where
  | empty
  | useModule (name : String) (nameSpan : Span)
  | fn (decl : FnDecl)
  | structs (group : StructGroup)
  | const (name : Ident) (ty : Option TypeExpr) (value : Expr)
  | param (name : Ident) (ty : TypeExpr)
  | assert (cond : Expr)

structure Item where
  kind : ItemKind
  span : Span

instance : Inhabited Item := ⟨⟨.empty, default⟩⟩

structure Script where
  items : List Item

end Ember
