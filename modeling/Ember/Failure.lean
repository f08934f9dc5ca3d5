import Ember.Span

/-!
# Why lowering stops

A problem is for the author of the program to mend, something unsupported may work one day, and a
defect says that the compiler contradicts itself. Types, functions and operators appear in causes
under the names by which messages show them.
-/
set_option autoImplicit false

namespace Ember

inductive Problem where
  | layoutsDiffer (first firstPath firstStorage name path storage target : String)
  | matrixColumnCount (name : String) (count : Nat)
  | matrixColumnType (name ty : String)
  | voidElement (ty : String)
  | arrayOfNone
  | strayAlternative (first stray : String)
  | divisionByZero
  | operandTypes (left right : String)
  | notCountable (ty : String)
  | noVector (width : Nat) (kind : String)
  | notDefined (name : String)
  | ambiguous (name : String) (args candidates : List String)
  | noOverload (name : String) (args candidates : List String)
  | mismatch (expected found : String)
  | noValue (what ty : String)
  | rangeAlone
  | sourceAlone
  | typeAsValue (name : String)
  | undefinedName (name : String)
  | undeclaredParam (name : String)
  | localCalled (name : String)
  | unnamedCalled
  | noTypeArguments (name : String)
  | typeArgumentCount (name : String) (expected found : Nat)
  | noField (ty field : String)
  | notIndexable (ty : String)
  | outOfBounds (index : Int) (ty : String)
  | fieldSetTwice (field : String)
  | notStruct (ty : String)
  | unknownType (name : String)
  | missingField (field ty : String)
  | emptyArray
  | elementTypes (first other : String)
  | branchTypes (what first other : String)
  | notExhaustive
  | refutable (place : String)
  | openRange
  | notIterable (ty : String)
  | notAssignable
  | assertionFailed
  | noSuchLabel (label : String)
  | outsideLoop (keyword : String)
  | patternType (pattern ty : String)
  | fieldNotMentioned (field : String)
  | arrayPatternType (ty : String)
  | arrayPatternLength (count : Nat) (ty : String)
  | typeTakesNoArguments (name : String)
  | alternativeNotStruct (ty : String)
  | arrayLengthNotPositive (length : Int)
  | arrayLengthType (ty : String)
  | arrayLengthUnknown
  | typeDeclaredTwice (name : String)
  | fieldDeclaredTwice (field : String)
  | constUnknown
  | paramVoid (name : String)
  | mixedSource
  | noSource (target : String)
  | cyclicUse (name : String)
  | noModule (name : String)
  | unreadableModule (name path reason : String)
  deriving DecidableEq, Inhabited

def plural (count : Nat) (word : String) : String := if count = 1 then word else word ++ "s"

def signatureList (signatures : List String) : String :=
  String.intercalate "\n" (signatures.map ("  " ++ ·))

def Problem.message : Problem → String
  | .layoutsDiffer first firstPath firstStorage name path storage target =>
    s!"struct group variants must share one layout, but `{first}` is {firstPath} ({firstStorage}) and `{name}` is {path} ({storage}) on {target}"
  | .matrixColumnCount name count => s!"matrix `{name}` needs 2 to 4 columns, found {count}"
  | .matrixColumnType name ty =>
    s!"matrix `{name}` columns must be float vectors of one width, found `{ty}`"
  | .voidElement ty => s!"array elements cannot be void (`{ty}`)"
  | .arrayOfNone => "array length must be positive"
  | .strayAlternative first stray =>
    s!"`{first}` and `{stray}` were not declared in one struct group"
  | .divisionByZero => "integer division by zero"
  | .operandTypes left right => s!"mismatched operand types `{left}` and `{right}`"
  | .notCountable ty => s!"`#` needs a vector or an array, found `{ty}`"
  | .noVector width kind => s!"there is no {width}-component vector of `{kind}`"
  | .notDefined name => s!"`{name}` is not defined"
  | .ambiguous name args candidates =>
    s!"call to `{name}` with (" ++ String.intercalate ", " args ++ ") is ambiguous between:\n" ++
      signatureList candidates
  | .noOverload name args candidates =>
    s!"no overload of `{name}` accepts (" ++ String.intercalate ", " args ++
      "); candidates are:\n" ++ signatureList candidates
  | .mismatch expected found => s!"expected `{expected}`, found `{found}`"
  | .noValue what ty => s!"{what} has no value (type `{ty}`)"
  | .rangeAlone => "a range is only allowed as a `for` iterable"
  | .sourceAlone => "`source` blocks are only allowed as the whole body of a function"
  | .typeAsValue name => s!"`{name}` is a type, not a value"
  | .undefinedName name => s!"undefined name `{name}`"
  | .undeclaredParam name => s!"undeclared parameter `${name}`"
  | .localCalled name => s!"`{name}` is a local value, not a function"
  | .unnamedCalled => "only named functions can be called"
  | .noTypeArguments name => s!"`{name}` takes no type arguments"
  | .typeArgumentCount name expected found =>
    s!"`{name}` needs {expected} explicit type " ++ plural expected "argument" ++ s!", found {found}"
  | .noField ty field => s!"`{ty}` has no field `{field}`"
  | .notIndexable ty => s!"cannot index into `{ty}`"
  | .outOfBounds index ty => s!"index {index} is out of bounds for `{ty}`"
  | .fieldSetTwice field => s!"field `{field}` is set twice"
  | .notStruct ty => s!"`{ty}` is not a struct"
  | .unknownType name => s!"unknown type `{name}`"
  | .missingField field ty => s!"missing field `{field}` in `{ty}`"
  | .emptyArray => "an empty array literal has no type"
  | .elementTypes first other => s!"array elements have different types `{first}` and `{other}`"
  | .branchTypes what first other =>
    s!"{what} branches have different types `{first}` and `{other}`"
  | .notExhaustive => "match is not exhaustive"
  | .refutable place => s!"refutable pattern in `{place}`"
  | .openRange => "a `for` range needs both bounds"
  | .notIterable ty => s!"cannot iterate over `{ty}`"
  | .notAssignable => "cannot assign to this expression"
  | .assertionFailed => "assertion failed"
  | .noSuchLabel label => s!"no enclosing loop is labelled `'{label}`"
  | .outsideLoop keyword => s!"`{keyword}` outside of a loop"
  | .patternType pattern ty => s!"pattern of type `{pattern}` cannot match a value of type `{ty}`"
  | .fieldNotMentioned field => s!"pattern does not mention field `{field}`; add `..` to ignore it"
  | .arrayPatternType ty => s!"array pattern cannot match a value of type `{ty}`"
  | .arrayPatternLength count ty =>
    s!"array pattern with {count} " ++ plural count "element" ++ s!" cannot match `{ty}`"
  | .typeTakesNoArguments name => s!"type `{name}` takes no type arguments"
  | .alternativeNotStruct ty => s!"alternatives must be structs, found `{ty}`"
  | .arrayLengthNotPositive length => s!"array length must be positive, found {length}"
  | .arrayLengthType ty => s!"array length must be an `i32`, found `{ty}`"
  | .arrayLengthUnknown => "array length must be a compile-time constant"
  | .typeDeclaredTwice name => s!"type `{name}` is already declared"
  | .fieldDeclaredTwice field => s!"duplicate field `{field}`"
  | .constUnknown => "const value must be a compile-time constant"
  | .paramVoid name => s!"parameter `${name}` has no value"
  | .mixedSource => "a function body written with `source` blocks cannot contain anything else"
  | .noSource target => s!"no `source` block for {target}"
  | .cyclicUse name => s!"cyclic use of `{name}`"
  | .noModule name => s!"no module named `{name}`"
  | .unreadableModule name path reason => s!"cannot read module `{name}` from {path}: {reason}"

inductive Unsupported where
  | powerDerivative
  | derivative
  | loopLabel (target : String)
  | labelledJump (keyword target : String)
  /-- Lowering went deeper than it was allowed to. -/
  | depth
  deriving DecidableEq, Inhabited

def Unsupported.message : Unsupported → String
  | .powerDerivative => "derivative of a power with a variable exponent"
  | .derivative => "derivative of this expression"
  | .loopLabel target => s!"loop labels on {target}"
  | .labelledJump keyword target => s!"labelled `{keyword}` on {target}"
  | .depth => "nesting this deep"

inductive Defect where
  | matrixColumn (index : Nat)
  | matrixColumns (count : Nat)
  | noAlternatives
  | noVariant
  | cannotFold (op args : String)
  | noScalarOperands (op : String)
  | noVectorOperands (op : String)
  | noComponents
  | matrixOperand
  | noColumns
  | arity (name : String)
  | cannotCast (value : String)
  | aggregateTyped (ty : String)
  | scalarTyped (ty : String)
  | shortStruct
  | shortArray
  | alternativeConstant
  | voidText (name : String)
  | transparentEmpty
  | noConversion (source target : String)
  | fieldOfNonStruct (ty : String)
  | fieldIndex
  | notDecomposable (ty : String)
  | scalarsExhausted (ty : String)
  | notComposable (ty : String)
  | swizzleOfNonVector
  | swizzleIndex
  | exprPlaceholder
  | typePlaceholder
  | itemPlaceholder
  | useUnresolved
  deriving DecidableEq, Inhabited

def Defect.message : Defect → String
  | .matrixColumn index => s!"matrix column {index} is not a float vector"
  | .matrixColumns count => s!"matrix has {count} columns"
  | .noAlternatives => "empty alternative type"
  | .noVariant => "struct group produced no variant"
  | .cannotFold op args => s!"cannot fold {op} over [{args}]"
  | .noScalarOperands op => s!"{op} without scalar operands"
  | .noVectorOperands op => s!"{op} over non-vector operands"
  | .noComponents => "reduction over zero components"
  | .matrixOperand => "matrix operand is not a struct"
  | .noColumns => "matrix without columns"
  | .arity name => s!"{name} arity"
  | .cannotCast value => s!"cannot cast {value}"
  | .aggregateTyped ty => s!"aggregate constant typed `{ty}`"
  | .scalarTyped ty => s!"scalar constant typed `{ty}`"
  | .shortStruct => "short struct constant"
  | .shortArray => "short array constant"
  | .alternativeConstant => "constant of an alternative type"
  | .voidText name => s!"void struct `{name}` has no text"
  | .transparentEmpty => "transparent struct without a stored field"
  | .noConversion source target => s!"no conversion from `{source}` to `{target}`"
  | .fieldOfNonStruct ty => s!"field of non-struct `{ty}`"
  | .fieldIndex => "field index out of range"
  | .notDecomposable ty => s!"`{ty}` has no scalar components"
  | .scalarsExhausted ty => s!"ran out of scalars building `{ty}`"
  | .notComposable ty => s!"cannot build `{ty}` from scalars"
  | .swizzleOfNonVector => "swizzle of a non-vector"
  | .swizzleIndex => "swizzle index out of range"
  | .exprPlaceholder => "expression placeholder reached emission"
  | .typePlaceholder => "type placeholder reached emission"
  | .itemPlaceholder => "item placeholder reached emission"
  | .useUnresolved => "`use` reached the emitter unresolved"

inductive Cause where
  | problem (p : Problem)
  | unsupported (u : Unsupported)
  | defect (d : Defect)
  deriving DecidableEq, Inhabited

inductive Severity where
  | issue | todo | bug
  deriving DecidableEq, Inhabited

def Severity.text : Severity → String
  | .issue => "error"
  | .todo => "not yet supported"
  | .bug => "internal compiler error"

namespace Cause

def severity : Cause → Severity
  | .problem _ => .issue
  | .unsupported _ => .todo
  | .defect _ => .bug

def message : Cause → String
  | .problem p => p.message
  | .unsupported u => u.message
  | .defect d => d.message

end Cause

structure Located (α : Type) where
  what : α
  span : Option Span := none
  deriving DecidableEq, Inhabited

/-- The place of what has none yet. Inner places are set first, so the most precise one stays. -/
def Located.locate {α : Type} (l : Located α) (span : Span) : Located α :=
  if l.span.isNone && !span.isVirtual then { l with span := some span } else l

abbrev Failure := Located Cause

structure Wording where
  severity : Severity
  message : String
  deriving DecidableEq, Inhabited

abbrev Notice := Located Wording

def Notice.text (n : Notice) : String := n.what.severity.text ++ ": " ++ n.what.message

def Failure.notice (f : Failure) : Notice := ⟨⟨f.what.severity, f.what.message⟩, f.span⟩

namespace Failure

def problem (p : Problem) : Failure := ⟨.problem p, none⟩
def unsupported (u : Unsupported) : Failure := ⟨.unsupported u, none⟩
def defect (d : Defect) : Failure := ⟨.defect d, none⟩

end Failure

instance {σ : Type} : MonadLift (Except Failure) (EStateM Failure σ) where
  monadLift
    | .ok a => pure a
    | .error f => throw f

end Ember
