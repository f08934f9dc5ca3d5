import Ember.Proofs.Literal

/-!
# Programs on the prelude, and the expressions that are literal in them

A literal expression is built from numbers and truth values with what the prelude declares. The
names in it that are not the prelude's are bound in it. A program may declare functions of a name
that the prelude has too, as long as those of the prelude are meant wherever values of its own types
are given.
-/

set_option autoImplicit false

namespace Ember

/-! ## The structs of the prelude -/

structure Prelude.Covers (scope : Scope) (b : Builtins) (K : Known) : Prop where
  closed : K.Closed
  scope : scope.Over K
  builtins : b.Over K

def Program.Basic (p : Program) : Known :=
  fun s => ∀ K, Prelude.Covers p.env.root p.builtins K → K s

/-- A program in the scope of the prelude, which declares none of the structs there. -/
structure Program.OnPrelude (p : Program) : Prop where
  start : ∃ q, Program.start = .ok q ∧ p.env.root = q.env.root ∧ p.builtins = q.builtins
  apart : ∀ name s, (name, Ty.struct s) ∈ p.env.own.types → ¬ p.Basic s

namespace Program

variable {p : Program} {K : Known}

theorem Over.covers (valid : p.Over K) : Prelude.Covers p.env.root p.builtins K :=
  ⟨valid.closed, valid.root, valid.builtins⟩

theorem Over.basic_sub (valid : p.Over K) : p.Basic.Sub K := fun _ known => known K valid.covers

/-- What is over every set that covers the prelude is over the least of them. -/
theorem Over.basic_of_all (valid : p.Over K) {t : Ty}
    (all : ∀ L, Prelude.Covers p.env.root p.builtins L → t.Over L) : t.Over p.Basic := by
  induction t using Ty.induct with
  | scalar k => trivial
  | struct s _ => exact all
  | array of len ih => exact ⟨ih fun L covers => (all L covers).1, (all K valid.covers).2⟩
  | alt first others _ _ =>
    refine ⟨fun L covers => (all L covers).1, (all K valid.covers).2.1, fun s member => ?_⟩
    exact ⟨fun L covers => ((all L covers).2.2 s member).1,
      ((all K valid.covers).2.2 s member).2⟩

/-- A struct of the prelude shares its group with no other struct of the program. -/
theorem Over.basic_alone (valid : p.Over K) (base : p.OnPrelude) {s t : Struct} (basic : p.Basic s)
    (known : K t) (differ : t.uid ≠ s.uid) : t.group ≠ s.group := by
  intro same
  obtain ⟨_, name, declared⟩ := valid.groups t s known (valid.basic_sub s basic) differ same
  exact base.apart name s declared basic

theorem Over.basic_plain (valid : p.Over K) (base : p.OnPrelude) : p.Basic.Plain where
  fields s known f member := valid.basic_of_all fun L covers =>
    covers.closed.fields s (known L covers) f member
  lone s _ hs ht differ := valid.basic_alone base ht (valid.basic_sub s hs) differ

theorem Over.basic_builtins (valid : p.Over K) : p.builtins.Over p.Basic where
  void := by
    obtain ⟨s, void, _, fields⟩ := valid.builtins.void
    refine ⟨s, void, fun L covers => ?_, fields⟩
    obtain ⟨u, void', known, _⟩ := covers.builtins.void
    cases void.symm.trans void'
    exact known
  vectors q member :=
    ⟨valid.basic_of_all fun L covers => (covers.builtins.vectors q member).1,
      (valid.builtins.vectors q member).2⟩

/-! ## The functions of the prelude -/

/-- A function that the prelude may have: not one that is declared, and a comparison where patterns
ask for one. -/
def isNative (f : String × Function) : Bool :=
  match f.2.behaviour with
  | .user _ => false
  | .reduce r => f.1 != "_eq" || r == .eq
  | _ => f.1 != "_eq"

theorem OnPrelude.native (base : p.OnPrelude) {f : String × Function}
    (member : f ∈ p.env.root.functions) : isNative f = true := by
  obtain ⟨q, start, root, _⟩ := base.start
  have native : Program.start.toOption.all (fun q => q.env.root.functions.all isNative) = true := by
    decide +kernel
  rw [start] at native
  rw [root] at member
  exact List.all_eq_true.mp native f member

theorem OnPrelude.eq_of_reduces (base : p.OnPrelude) {f : Function}
    (member : ("_eq", f) ∈ p.env.root.functions) : f.behaviour = .reduce .eq := by
  have native := base.native member
  unfold isNative at native
  split at native
  · cases native
  · rename_i r reduces
    have eq : r = .eq := by simpa using native
    rw [← eq]
    exact reduces
  · simp at native

theorem OnPrelude.not_user (base : p.OnPrelude) {f : String × Function}
    (member : f ∈ p.env.root.functions) (g : UserFn) : f.2.behaviour ≠ .user g := by
  intro user
  have native := base.native member
  simp [isNative, user] at native

theorem Over.basic_params (valid : p.Over K) {f : String × Function}
    (member : f ∈ p.env.root.functions) : ∀ q ∈ f.2.params.map Param.ty, q.Over p.Basic := by
  intro q listed
  have each (L : Known) (covers : Prelude.Covers p.env.root p.builtins L) : q.Over L :=
    Behaviour.Fits.params_over covers.closed (covers.scope.functions f member) q listed
  cases q with
  | exact ty => exact valid.basic_of_all each
  | vector k => trivial
  | any => trivial

theorem basic_of_construct {name : String} {f : Function} {s : Struct}
    (member : (name, f) ∈ p.env.root.functions) (builds : f.behaviour = .construct s) :
    p.Basic s := by
  intro L covers
  obtain ⟨params, fits⟩ : ∃ params, f.behaviour.Fits L params :=
    ⟨_, covers.scope.functions _ member⟩
  rw [builds] at fits
  cases fits
  assumption

theorem Over.basic_of_splat (valid : p.Over K) {name : String} {f : Function} {t : Ty}
    (member : (name, f) ∈ p.env.root.functions) (builds : f.behaviour = .splat t) :
    t.Over p.Basic := by
  refine valid.basic_of_all fun L covers => ?_
  obtain ⟨params, fits⟩ : ∃ params, f.behaviour.Fits L params :=
    ⟨_, covers.scope.functions _ member⟩
  rw [builds] at fits
  cases fits
  assumption

/-- Given values of the prelude's types, so many of them, a call by this name means a function of
the prelude. -/
def Means (p : Program) (name : String) (count : Nat) : Prop :=
  ∀ args : List Ty, args.length = count → (∀ t ∈ args, t.Over p.Basic) →
    ∀ f, resolve name (p.env.candidates name) args = .ok f → (name, f) ∈ p.env.root.functions

/-- What a program declares by a name is not meant by calls with another number of arguments. -/
theorem means_of_arity {name : String} {count : Nat}
    (other : ∀ f ∈ p.env.own.functions, f.1 = name → f.2.params.length ≠ count) :
    p.Means name count := by
  intro args length _ f found
  have gives := resolve_gives (fun _ => True) name (p.env.candidates name) args
  rw [found] at gives
  obtain ⟨⟨c, listed, rfl⟩, arity⟩ := gives
  rcases List.mem_append.mp listed with own | root
  · obtain ⟨g, kept, rfl⟩ := List.mem_map.mp own
    obtain ⟨member, named⟩ := List.mem_filter.mp kept
    exact absurd (arity.trans length) (other g member (eq_of_beq named))
  · obtain ⟨g, kept, rfl⟩ := List.mem_map.mp root
    obtain ⟨member, named⟩ := List.mem_filter.mp kept
    rw [← eq_of_beq named]
    exact member

end Program

/-! ## Literal expressions -/

mutual

def Pat.names : Pat → List String
  | ⟨.ignore, _⟩ | ⟨.lit _, _⟩ => []
  | ⟨.bind name _, _⟩ => [name]
  | ⟨.struct _ fields _, _⟩ => FieldPat.names fields
  | ⟨.array items _, _⟩ => Pat.allNames items

def Pat.allNames : List Pat → List String
  | [] => []
  | p :: ps => p.names ++ Pat.allNames ps

def FieldPat.names : List FieldPat → List String
  | [] => []
  | ⟨_, p⟩ :: fs => p.names ++ FieldPat.names fs

end

/-- A pattern that binds nothing `mut`. What it compares, it compares as the prelude does. -/
inductive Pat.Literal (means : String → Nat → Prop) : Pat → Prop
  | ignore {span : Span} : Literal means ⟨.ignore, span⟩
  | lit {l : Lit} {span : Span} : means "_eq" 2 → Literal means ⟨.lit l, span⟩
  | bind {name : String} {span : Span} : Literal means ⟨.bind name false, span⟩
  | struct {name : Ident} {fields : List FieldPat} {rest : Bool} {span : Span} :
      (∀ f ∈ fields, Literal means f.pat) → Literal means ⟨.struct name fields rest, span⟩
  | array {items : List Pat} {rest : Bool} {span : Span} :
      (∀ p ∈ items, Literal means p) → Literal means ⟨.array items rest, span⟩

mutual

/-- An expression that is built from literals and from names that are bound to such, where `means`
tells which names stand for the prelude's functions. -/
inductive Expr.Literal (means : String → Nat → Prop) : List String → Expr → Prop
  | lit {bound : List String} {l : Lit} {span : Span} : Expr.Literal means bound ⟨.lit l, span⟩
  | ident {bound : List String} {name : String} {span : Span} : name ∈ bound →
      Expr.Literal means bound ⟨.ident name, span⟩
  | binary {bound : List String} {op : BinaryOp} {a b : Expr} {span : Span} :
      means op.overloads 2 → Expr.Literal means bound a → Expr.Literal means bound b →
      Expr.Literal means bound ⟨.binary op a b, span⟩
  | unary {bound : List String} {op : UnaryOp} {a : Expr} {span : Span} : means op.overloads 1 →
      Expr.Literal means bound a → Expr.Literal means bound ⟨.unary op a, span⟩
  | call {bound : List String} {name : String} {typeArgs : List TypeExpr} {args : List Expr}
      {span span' : Span} : means name args.length →
      (∀ t ∈ typeArgs, TypeExpr.Literal means bound t) →
      (∀ a ∈ args, Expr.Literal means bound a) →
      Expr.Literal means bound ⟨.call ⟨.ident name, span'⟩ typeArgs args, span⟩
  | builtin {bound : List String} {name : String} {typeArgs : List TypeExpr} {args : List Expr}
      {span span' : Span} : (∀ t ∈ typeArgs, TypeExpr.Literal means bound t) →
      (∀ a ∈ args, Expr.Literal means bound a) →
      Expr.Literal means bound ⟨.call ⟨.builtin name, span'⟩ typeArgs args, span⟩
  | methodCall {bound : List String} {receiver : Expr} {method : Ident} {args : List Expr}
      {span : Span} : means method.name (args.length + 1) →
      (∀ a ∈ receiver :: args, Expr.Literal means bound a) →
      Expr.Literal means bound ⟨.methodCall receiver method args, span⟩
  | field {bound : List String} {base : Expr} {name : Ident} {span : Span} :
      Expr.Literal means bound base → Expr.Literal means bound ⟨.field base name, span⟩
  | index {bound : List String} {base i : Expr} {span : Span} : Expr.Literal means bound base →
      Expr.Literal means bound i → Expr.Literal means bound ⟨.index base i, span⟩
  | array {bound : List String} {items : List Expr} {span : Span} :
      (∀ e ∈ items, Expr.Literal means bound e) → Expr.Literal means bound ⟨.array items, span⟩
  | block {bound : List String} {b : Block} {span : Span} : Block.Literal means bound b →
      Expr.Literal means bound ⟨.block b, span⟩
  | ifElse {bound : List String} {cond : Expr} {yes : Block} {no : Option Expr} {span : Span} :
      Expr.Literal means bound cond → Block.Literal means bound yes →
      (∀ e ∈ no, Expr.Literal means bound e) →
      Expr.Literal means bound ⟨.ifElse cond yes no, span⟩
  | matchArms {bound : List String} {subject : Expr} {arms : List MatchArm} {span : Span} :
      Expr.Literal means bound subject → (∀ a ∈ arms, a.pat.Literal means) →
      (∀ a ∈ arms, Expr.Literal means (a.pat.names ++ bound) a.body) →
      Expr.Literal means bound ⟨.matchArms subject arms, span⟩

/-- Bindings, each in the scope of those before it, and a value. -/
inductive Block.Literal (means : String → Nat → Prop) : List String → Block → Prop
  | tail {bound : List String} {value : Option Expr} {span : Span} :
      (∀ e ∈ value, Expr.Literal means bound e) → Block.Literal means bound ⟨[], value, span⟩
  | letBind {bound : List String} {pat : Pat} {ty : Option TypeExpr} {e : Expr} {span span' : Span}
      {rest : List Stmt} {value : Option Expr} : pat.Literal means →
      (∀ t ∈ ty, TypeExpr.Literal means bound t) → Expr.Literal means bound e →
      Block.Literal means (pat.names ++ bound) ⟨rest, value, span⟩ →
      Block.Literal means bound ⟨⟨.letBind pat ty e, span'⟩ :: rest, value, span⟩

inductive TypeExpr.Literal (means : String → Nat → Prop) : List String → TypeExpr → Prop
  | named {bound : List String} {name : Ident} {args : List TypeExpr} {span : Span} :
      TypeExpr.Literal means bound ⟨.named name args, span⟩
  | array {bound : List String} {of : TypeExpr} {len : Expr} {span : Span} :
      TypeExpr.Literal means bound of → Expr.Literal means bound len →
      TypeExpr.Literal means bound ⟨.array of len, span⟩
  | alt {bound : List String} {members : List TypeExpr} {span : Span} :
      (∀ t ∈ members, TypeExpr.Literal means bound t) →
      TypeExpr.Literal means bound ⟨.alt members, span⟩

end

end Ember
