import Ember.Program.Basic
import Ember.Ty.Declare

/-!
# The prelude

What every program starts from: scalars, vectors and matrices, operators, and a library of
functions.
-/
set_option autoImplicit false

namespace Ember

def Function.constructor (s : Struct) : Function where
  name := s.name
  params := s.fields.map fun f => ⟨f.name, .exact f.ty⟩
  result := .exact (.struct s)
  behaviour := .construct s

namespace Prelude

def splat (s : Struct) (kind : ScalarKind) : Function where
  name := s.name
  params := [⟨"v", .exact (.scalar kind)⟩]
  result := .exact (.struct s)
  behaviour := .splat (.struct s)

def matrixProduct (matrix column : Ty) : Function where
  name := "*"
  params := [⟨"m", .exact matrix⟩, ⟨"v", .exact column⟩]
  result := .exact column
  behaviour := .matrixProduct

def paramsOf (count : Nat) (ty : ParamTy) : List Param :=
  (["a", "b", "c"].take count).map fun n => ⟨n, ty⟩

def mapFn (name : String) (op : ScalarOp) (kind : ScalarKind) : Function where
  name := name
  params := paramsOf op.arity (.vector kind)
  result := .vector (op.resultKind kind)
  behaviour := .map op

def scalarFn (name : String) (op : ScalarOp) (kind : ScalarKind) : Function where
  name := name
  params := paramsOf op.arity (.exact (.scalar kind))
  result := .exact (.scalar (op.resultKind kind))
  behaviour := .map op

def reduceFn (name : String) (r : Reduction) (kind : ScalarKind) (arity : Nat) : Function where
  name := name
  params := paramsOf arity (.vector kind)
  result := .exact r.resultTy
  behaviour := .reduce r

def castFn (name : String) (source target : ScalarKind) : Function where
  name := name
  params := [⟨"x", .exact (.scalar source)⟩]
  result := .exact (.scalar target)
  behaviour := .cast source target

def numeric : List ScalarKind := [.float, .int]

def operators : List (String × Function) :=
  let maps (key symbol : String) (op : ScalarOp) (kinds : List ScalarKind) :=
    kinds.map fun k => (key, mapFn symbol op k)
  let comparisons (key symbol : String) (op : ScalarOp) :=
    numeric.map fun k => (key, scalarFn symbol op k)
  maps "_add" "+" .add numeric ++ maps "_sub" "-" .sub numeric ++ maps "_sub" "-" .neg numeric ++
  maps "_mul" "*" .mul numeric ++ maps "_div" "/" .div numeric ++ maps "_rem" "%" .rem numeric ++
  maps "_bitand" "&" .bitAnd [.int] ++ maps "_bitor" "|" .bitOr [.int] ++
  maps "_pow" "^" .pow [.float] ++
  comparisons "_lt" "<" .lt ++ comparisons "_gt" ">" .gt ++
  comparisons "_le" "<=" .le ++ comparisons "_ge" ">=" .ge ++
  [("_and", scalarFn "&&" .and .bool), ("_or", scalarFn "||" .or .bool),
   ("_not", scalarFn "!" .not .bool)] ++
  ScalarKind.all.flatMap (fun k =>
    [("_eq", reduceFn "==" .eq k 2), ("_ne", reduceFn "!=" .ne k 2)]) ++
  [("_approx", reduceFn "~=" .approx .float 2),
   ("_hash", ⟨"#", [⟨"v", .any⟩], .exact .i32, .count, 0⟩)]

def library : List (String × Function) :=
  let maps (name : String) (op : ScalarOp) (kinds : List ScalarKind) :=
    kinds.map fun k => (name, mapFn name op k)
  maps "min" .min numeric ++ maps "max" .max numeric ++ maps "clamp" .clamp numeric ++
  maps "abs" .abs numeric ++ maps "mix" .mix [.float] ++ maps "fract" .fract [.float] ++
  maps "floor" .floor [.float] ++ maps "sin" .sin [.float] ++ maps "cos" .cos [.float] ++
  maps "exp" .exp [.float] ++ maps "sqrt" .sqrt [.float] ++ maps "ln" .ln [.float] ++
  [("dot", reduceFn "dot" .dot .float 2), ("length", reduceFn "length" .length .float 1),
   ("normalize", ⟨"normalize", [⟨"v", .vector .float⟩], .vector .float, .normalize, 0⟩),
   ("f32", castFn "f32" .int .float), ("f32", castFn "f32" .float .float),
   ("i32", castFn "i32" .float .int), ("i32", castFn "i32" .int .int)]

def vectorShapes : List (ScalarKind × Nat) :=
  ScalarKind.all.flatMap fun k => [2, 3, 4].map fun w => (k, w)

def declareVector (shape : ScalarKind × Nat) : Numbering Struct :=
  Struct.declare ⟨shape.1.vectorName shape.2,
    (["x", "y", "z", "w"].take shape.2).map fun c => ⟨c, .scalar shape.1⟩⟩ false

def declareMatrix (size : Nat) (column : Ty) : Numbering Struct :=
  Struct.declare ⟨"mat" ++ toString size,
    (["c0", "c1", "c2", "c3"].take size).map fun c => ⟨c, column⟩⟩ true

def vectorFns (shape : ScalarKind × Nat) (s : Struct) : List (String × Function) :=
  [(s.name, .constructor s), (s.name, splat s shape.1)]

def matrixFns (s : Struct) (column : Ty) : List (String × Function) :=
  [(s.name, .constructor s), ("_mul", matrixProduct (.struct s) column)]

def build : Numbering (Scope × Builtins) := do
  let void ← Struct.declare ⟨"void", []⟩ false
  let vectors ← vectorShapes.mapM fun shape => return (shape, ← declareVector shape)
  let floats := vectors.filter (·.1.1 == .float)
  let matrices ← floats.mapM fun (shape, s) =>
    return (shape.2, Ty.struct s, ← declareMatrix shape.2 (.struct s))
  let structs := void :: vectors.map (·.2) ++ matrices.map (·.2.2)
  let scope : Scope :=
    { types := ScalarKind.all.map (fun k => (k.name, Ty.scalar k)) ++
        structs.map fun s => (s.name, Ty.struct s)
      functions := vectors.flatMap (fun (shape, s) => vectorFns shape s) ++
        matrices.flatMap (fun (_, column, s) => matrixFns s column) ++ operators ++ library }
  return (scope,
    { void := .struct void
      vectors := vectors.map fun (shape, s) => (shape, Ty.struct s)
      matrices := matrices.map fun (size, _, s) => (size, Ty.struct s) })

end Prelude

def Program.start : Except Failure Program :=
  match Prelude.build {} with
  | .ok (scope, builtins) ids => .ok { ids, env := { own := {}, root := scope }, builtins }
  | .error f _ => .error f

end Ember
