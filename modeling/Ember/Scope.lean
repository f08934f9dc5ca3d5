import Ember.Function
import Ember.Value

/-!
# Scopes

What is declared: types, functions, constants and parameters from outside, and the structs that
symbols stand for. Names are looked up in the program first and in the prelude then.
-/
set_option autoImplicit false

namespace Ember

/-- What tells structs apart that are known by a symbol: the symbol, and the names and types of the
fields. -/
structure AnonKey where
  symbol : String
  fields : List String
  types : List Ty

def AnonKey.same (a b : AnonKey) : Bool :=
  a.symbol == b.symbol && a.fields == b.fields && a.types == b.types

/-- A later declaration of a name hides an earlier one. Functions are kept in order, and all of one
name stay visible. -/
structure Scope where
  types : List (String × Ty) := []
  functions : List (String × Function) := []
  consts : List (String × Value) := []
  params : List (String × Ty) := []
  symbols : List (String × Ty) := []
  anon : List (AnonKey × Struct) := []
  deriving Inhabited

namespace Scope

def addType (s : Scope) (name : String) (ty : Ty) : Scope :=
  { s with types := (name, ty) :: s.types }

def addFn (s : Scope) (name : String) (f : Function) : Scope :=
  { s with functions := s.functions ++ [(name, f)] }

def addConst (s : Scope) (name : String) (v : Value) : Scope :=
  { s with consts := (name, v) :: s.consts }

def addParam (s : Scope) (name : String) (ty : Ty) : Scope :=
  { s with params := (name, ty) :: s.params }

def addSymbol (s : Scope) (name : String) (ty : Ty) : Scope :=
  { s with symbols := (name, ty) :: s.symbols }

def addAnon (s : Scope) (key : AnonKey) (t : Struct) : Scope :=
  { s with anon := (key, t) :: s.anon }

def candidates (s : Scope) (depth : Nat) (name : String) : List Candidate :=
  (s.functions.filter (·.1 == name)).map fun (_, f) => ⟨depth, f⟩

def hasFn (s : Scope) (name : String) : Bool := s.functions.any (·.1 == name)

end Scope

structure Environment where
  own : Scope
  root : Scope
  deriving Inhabited

namespace Environment

def type? (e : Environment) (name : String) : Option Ty :=
  e.own.types.lookup name <|> e.root.types.lookup name

def const? (e : Environment) (name : String) : Option Value :=
  e.own.consts.lookup name <|> e.root.consts.lookup name

def param? (e : Environment) (name : String) : Option Ty :=
  e.own.params.lookup name <|> e.root.params.lookup name

def symbol? (e : Environment) (name : String) : Option Ty :=
  e.own.symbols.lookup name <|> e.root.symbols.lookup name

def anon? (e : Environment) (key : AnonKey) : Option Struct :=
  ((e.own.anon.find? (·.1.same key)) <|> (e.root.anon.find? (·.1.same key))).map (·.2)

def hasFn (e : Environment) (name : String) : Bool := e.own.hasFn name || e.root.hasFn name

def candidates (e : Environment) (name : String) : List Candidate :=
  e.own.candidates 0 name ++ e.root.candidates 1 name

/-- The functions of a name in the prelude, whatever the program declares. -/
def builtins (e : Environment) (name : String) : List Candidate := e.root.candidates 0 name

end Environment
end Ember
