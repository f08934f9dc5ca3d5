import Ember.ScalarOp
import Ember.Syntax.Basic
import Ember.Ty.Basic

/-!
# Functions, and which of several is called

A parameter that is met exactly counts two, one met by shape counts one, and one met by conversion
nothing. The function with the highest count is called, among equals the one from the innermost
scope. If that leaves several, the call is ambiguous. One pass over the candidates finds out.
-/
set_option autoImplicit false

namespace Ember

inductive ParamTy where
  /-- A type, and what converts to it. -/
  | exact (ty : Ty)
  /-- Any shape of a kind. -/
  | vector (kind : ScalarKind)
  | any

namespace ParamTy

def name : ParamTy → String
  | .exact ty => ty.name
  | .vector kind => kind.vectorMark ++ "vecN"
  | .any => "any"

def score (p : ParamTy) (arg : Ty) : Option Nat :=
  match p with
  | .exact ty => if ty == arg then some 2 else if ty.accepts arg then some 0 else none
  | .vector kind =>
    if arg.shape?.any (·.1 == kind) then some 1
    else if (Ty.scalar kind).accepts arg then some 0
    else none
  | .any => some 1

end ParamTy

structure Param where
  name : String
  ty : ParamTy

inductive Reduction where
  | eq | ne | approx | dot | length
  deriving DecidableEq, Inhabited

namespace Reduction

def all : List Reduction := [.eq, .ne, .approx, .dot, .length]

def name : Reduction → String
  | .eq => "Eq"
  | .ne => "Ne"
  | .approx => "Approx"
  | .dot => "Dot"
  | .length => "Length"

def ofName? (s : String) : Option Reduction := all.find? (·.name == s)

def resultTy : Reduction → Ty
  | .eq | .ne | .approx => .bool
  | .dot | .length => .f32

end Reduction

/-- A function that the program declares. A template has a name of its own in each instance. -/
structure UserFn where
  id : Nat
  decl : FnDecl
  stem : String
  backend : Option String
  /-- The body as foreign text, if it is written so. -/
  source : Option (List SourceBlock)

inductive Behaviour where
  | construct (s : Struct)
  /-- Sets every component to one scalar. -/
  | splat (ty : Ty)
  | matrixProduct
  | map (op : ScalarOp)
  | reduce (r : Reduction)
  | count
  | normalize
  | cast (source target : ScalarKind)
  | user (f : UserFn)

structure Function where
  name : String
  params : List Param
  result : ParamTy
  behaviour : Behaviour
  /-- How many types a call has to give. -/
  generics : Nat := 0

namespace Function

def signature (f : Function) : String :=
  "fn " ++ f.name ++ "(" ++
    String.intercalate ", " (f.params.map fun p => p.name ++ ": " ++ p.ty.name) ++ ") -> " ++
    f.result.name

def scores : List Param → List Ty → Option Nat
  | [], [] => some 0
  | p :: ps, a :: as => do return (← p.ty.score a) + (← scores ps as)
  | _, _ => none

def score (f : Function) (args : List Ty) : Option Nat := scores f.params args

end Function

/-- A function that may be called, and how far out it was declared. -/
structure Candidate where
  depth : Nat
  function : Function

/-- What is known after some candidates: the best of them, the first one if there are several, with
its score; and all of the best, in case there are several. -/
structure Ranking where
  best : Option (Nat × Candidate) := none
  ties : List Candidate := []

def Ranking.read (args : List Ty) (r : Ranking) (c : Candidate) : Ranking :=
  match c.function.score args, r.best with
  | none, _ => r
  | some score, none => ⟨some (score, c), []⟩
  | some score, some (high, other) =>
    if score < high ∨ score = high ∧ other.depth < c.depth then r
    else if score = high ∧ c.depth = other.depth then
      { r with ties := (if r.ties.isEmpty then [other] else r.ties) ++ [c] }
    else ⟨some (score, c), []⟩

def resolve (name : String) (candidates : List Candidate) (args : List Ty) :
    Except Failure Function :=
  let signatures (cs : List Candidate) : List String := cs.map (·.function.signature)
  if candidates.isEmpty then .error (.problem (.notDefined name))
  else match candidates.foldl (Ranking.read args) {} with
    | ⟨none, _⟩ => .error (.problem (.noOverload name (args.map Ty.name) (signatures candidates)))
    | ⟨some (_, c), []⟩ => .ok c.function
    | ⟨some _, several⟩ =>
      .error (.problem (.ambiguous name (args.map Ty.name) (signatures several)))

end Ember
