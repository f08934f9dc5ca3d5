import Ember.Code
import Ember.Failure

/-!
# Operations on scalars

Their values, and their code in each target.

Floats are single precision, and each operation rounds. The functions without an exact value are
rounded from double precision. Whole numbers wrap.
-/
set_option autoImplicit false

namespace Ember

inductive ScalarOp where
  | add | sub | mul | div | rem | pow | neg | min | max | clamp | mix | abs | fract | floor
  | sin | cos | exp | sqrt | ln | bitAnd | bitOr | lt | gt | le | ge | and | or | not
  deriving DecidableEq, Inhabited

namespace Scalar

def float? : Scalar → Option Float32
  | .float v => some v
  | _ => none

def int? : Scalar → Option Int32
  | .int v => some v
  | _ => none

def bool? : Scalar → Option Bool
  | .bool v => some v
  | _ => none

end Scalar

namespace Single

def viaDouble (f : Float → Float) (a : Float32) : Float32 := (f a.toFloat).toFloat32

def pow (a b : Float32) : Float32 := (Float.pow a.toFloat b.toFloat).toFloat32

/-- The smaller of two numbers; of a number and none, the number. -/
def min (a b : Float32) : Float32 :=
  if a.isNaN then b else if b.isNaN then a else if b < a then b else a

def max (a b : Float32) : Float32 :=
  if a.isNaN then b else if b.isNaN then a else if a < b then b else a

end Single

namespace ScalarOp

def all : List ScalarOp :=
  [.add, .sub, .mul, .div, .rem, .pow, .neg, .min, .max, .clamp, .mix, .abs, .fract, .floor,
   .sin, .cos, .exp, .sqrt, .ln, .bitAnd, .bitOr, .lt, .gt, .le, .ge, .and, .or, .not]

def name : ScalarOp → String
  | .add => "Add"
  | .sub => "Sub"
  | .mul => "Mul"
  | .div => "Div"
  | .rem => "Rem"
  | .pow => "Pow"
  | .neg => "Neg"
  | .min => "Min"
  | .max => "Max"
  | .clamp => "Clamp"
  | .mix => "Mix"
  | .abs => "Abs"
  | .fract => "Fract"
  | .floor => "Floor"
  | .sin => "Sin"
  | .cos => "Cos"
  | .exp => "Exp"
  | .sqrt => "Sqrt"
  | .ln => "Ln"
  | .bitAnd => "BitAnd"
  | .bitOr => "BitOr"
  | .lt => "Lt"
  | .gt => "Gt"
  | .le => "Le"
  | .ge => "Ge"
  | .and => "And"
  | .or => "Or"
  | .not => "Not"

def ofName? (s : String) : Option ScalarOp := all.find? (·.name == s)

def arity : ScalarOp → Nat
  | .neg | .abs | .fract | .floor | .sin | .cos | .exp | .sqrt | .ln | .not => 1
  | .clamp | .mix => 3
  | _ => 2

def resultKind (op : ScalarOp) (kind : ScalarKind) : ScalarKind :=
  match op with
  | .lt | .gt | .le | .ge => .bool
  | _ => kind

/-- Whether GLSL takes a scalar in the place of a vector. -/
def mixesScalars : ScalarOp → Bool
  | .add | .sub | .mul | .div | .rem | .min | .max | .clamp | .mix | .bitAnd | .bitOr => true
  | _ => false

/-- Whether an operand of zero is refused among whole numbers. -/
def divides : ScalarOp → Bool
  | .div | .rem => true
  | _ => false

def ofFloats? : ScalarOp → List Float32 → Option Scalar
  | .add, [a, b] => some (.float (a + b))
  | .sub, [a, b] => some (.float (a - b))
  | .mul, [a, b] => some (.float (a * b))
  | .div, [a, b] => some (.float (a / b))
  | .rem, [a, b] => some (.float (a - b * (a / b).floor))
  | .pow, [a, b] => some (.float (Single.pow a b))
  | .neg, [a] => some (.float (-a))
  | .min, [a, b] => some (.float (Single.min a b))
  | .max, [a, b] => some (.float (Single.max a b))
  | .clamp, [x, lo, hi] => some (.float (Single.min (Single.max x lo) hi))
  | .mix, [a, b, t] => some (.float (a + (b - a) * t))
  | .abs, [a] => some (.float a.abs)
  | .fract, [a] => some (.float (a - a.floor))
  | .floor, [a] => some (.float a.floor)
  | .sin, [a] => some (.float (Single.viaDouble Float.sin a))
  | .cos, [a] => some (.float (Single.viaDouble Float.cos a))
  | .exp, [a] => some (.float (Single.viaDouble Float.exp a))
  | .sqrt, [a] => some (.float a.sqrt)
  | .ln, [a] => some (.float (Single.viaDouble Float.log a))
  | .lt, [a, b] => some (.bool (a < b))
  | .gt, [a, b] => some (.bool (b < a))
  | .le, [a, b] => some (.bool (a ≤ b))
  | .ge, [a, b] => some (.bool (b ≤ a))
  | _, _ => none

def ofInts? : ScalarOp → List Int32 → Option Scalar
  | .add, [a, b] => some (.int (a + b))
  | .sub, [a, b] => some (.int (a - b))
  | .mul, [a, b] => some (.int (a * b))
  | .div, [a, b] => some (.int (a / b))
  | .rem, [a, b] => some (.int (a % b))
  | .neg, [a] => some (.int (-a))
  | .min, [a, b] => some (.int (if b < a then b else a))
  | .max, [a, b] => some (.int (if a < b then b else a))
  | .clamp, [x, lo, hi] =>
    let y := if x < lo then lo else x
    some (.int (if hi < y then hi else y))
  | .abs, [a] => some (.int (if a < 0 then -a else a))
  | .bitAnd, [a, b] => some (.int (a &&& b))
  | .bitOr, [a, b] => some (.int (a ||| b))
  | .lt, [a, b] => some (.bool (a < b))
  | .gt, [a, b] => some (.bool (b < a))
  | .le, [a, b] => some (.bool (a ≤ b))
  | .ge, [a, b] => some (.bool (b ≤ a))
  | _, _ => none

def ofBools? : ScalarOp → List Bool → Option Scalar
  | .and, [a, b] => some (.bool (a && b))
  | .or, [a, b] => some (.bool (a || b))
  | .not, [a] => some (.bool (!a))
  | _, _ => none

/-- The value on operands of one kind, which the operation has to have. -/
def value? (op : ScalarOp) (args : List Scalar) : Option Scalar :=
  match args with
  | .float _ :: _ => (args.mapM Scalar.float?).bind op.ofFloats?
  | .int _ :: _ => (args.mapM Scalar.int?).bind op.ofInts?
  | .bool _ :: _ => (args.mapM Scalar.bool?).bind op.ofBools?
  | [] => none

def byZero (op : ScalarOp) : List Scalar → Bool
  | [.int _, .int b] => op.divides && b == 0
  | _ => false

def fold (op : ScalarOp) (args : List Constant) : Except Failure Constant :=
  let cannot : Except Failure Constant := .error (.defect (.cannotFold op.name
    (String.intercalate ", " (args.map Constant.shown))))
  match args.mapM Constant.scalar? with
  | none => cannot
  | some scalars =>
    if op.byZero scalars then .error (.problem .divisionByZero)
    else match op.value? scalars with
      | some s => .ok (.scalar s)
      | none => cannot

def operand (args : List Code) (i : Nat) : Code := args.getD i (.name "")

def codeOp? : ScalarOp → Option CodeOp
  | .add => some .add
  | .sub => some .sub
  | .mul => some .mul
  | .div => some .div
  | .rem => some .rem
  | .bitAnd => some .bitAnd
  | .bitOr => some .bitOr
  | .lt => some .lt
  | .gt => some .gt
  | .le => some .le
  | .ge => some .ge
  | .and => some .and
  | .or => some .or
  | _ => none

def fnName : ScalarOp → String
  | .rem => "mod"
  | .pow => "pow"
  | .min => "min"
  | .max => "max"
  | .clamp => "clamp"
  | .mix => "mix"
  | .abs => "abs"
  | .fract => "fract"
  | .floor => "floor"
  | .sin => "sin"
  | .cos => "cos"
  | .exp => "exp"
  | .sqrt => "sqrt"
  | .ln => "log"
  | _ => ""

def glslCode (op : ScalarOp) (kind : ScalarKind) (args : List Code) : Code :=
  let a := operand args 0
  let b := operand args 1
  match op with
  | .neg => .paren (.neg a)
  | .not => .paren (.not a)
  | .rem => if kind = .int then .op .rem a b else .call op.fnName args
  | _ =>
    match op.codeOp? with
    | some o => .op o a b
    | none => .call op.fnName args

/-- `(c | 0)`, which makes a whole number of 32 bits. -/
def wrapped (c : Code) : Code := .op .bitOr c (.lit (.int 0))

def jsIntCode? (op : ScalarOp) (args : List Code) : Option Code :=
  let a := operand args 0
  let b := operand args 1
  match op with
  | .add => some (wrapped (.op .add a b))
  | .sub => some (wrapped (.op .sub a b))
  | .mul => some (.call "Math.imul" [a, b])
  | .div => some (wrapped (.op .div a b))
  | .neg => some (wrapped (.paren (.neg a)))
  | .abs => some (wrapped (.call "Math.abs" [a]))
  | .rem => some (.op .rem a b)
  | _ => none

def jsCode (op : ScalarOp) (args : List Code) : Code :=
  let a := operand args 0
  let b := operand args 1
  let c := operand args 2
  match op with
  | .rem => .op .sub a (.binary .mul b (.call "Math.floor" [.binary .div a b]))
  | .neg => .paren (.neg a)
  | .not => .paren (.not a)
  | .clamp => .call "Math.min" [.call "Math.max" [a, b], c]
  | .mix => .op .add a (.binary .mul (.op .sub b a) c)
  | .fract => .op .sub a (.call "Math.floor" [a])
  | _ =>
    match op.codeOp? with
    | some o => .op o a b
    | none => .call ("Math." ++ op.fnName) args

/-- The code of an operation. JavaScript repeats operands of some. -/
def code (op : ScalarOp) (target : Target) (kind : ScalarKind) (args : List Code) : Code :=
  match target with
  | .glsl => op.glslCode kind args
  | .js =>
    if kind = .int then (op.jsIntCode? args).getD (op.jsCode args) else op.jsCode args

end ScalarOp
end Ember
