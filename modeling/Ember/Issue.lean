import Ember.Span

/-!
# Issues

Problems found while reading a text. They do not stop the reading: a text is in order exactly when
none was raised. Codes below 100 are lexical, the others syntactic.
-/
set_option autoImplicit false

namespace Ember

inductive IssueCode where
  | unterminatedString | invalidEscape | letterDirectlyAfterNumber | unknownCharacter
  | unterminatedSourceBlock | mismatchedOpeningParen | mismatchedClosingParen | invalidNumber
  | markerWithoutOperator | emptyPrefixedName | expectedItem | expectedSemicolon | expectedIdent
  | expectedFnName | expectedParamList | expectedParamName | expectedColon | expectedType
  | expectedReturnType | expectedFnBody | expectedStructName | expectedStructBody
  | expectedFieldName | expectedFieldType | expectedVariant | expectedConstName | expectedEquals
  | expectedParamDecl | expectedModuleName | expectedExpression | expectedOperand
  | expectedArrayLength | expectedTypeArgs | emptyTypeArgs | emptyGenericParams
  | expectedGenericName | expectedPattern | expectedCondition | expectedBlock | expectedElseBranch
  | expectedMatchBody | expectedFatArrow | emptyMatch | expectedIn | expectedIterable
  | expectedForAfterLabel | expectedFieldAfterDot | expectedIndex | expectedFieldValue
  | expectedSourceBody | expectedDerivativeBody | expectedComma | unexpectedToken | reservedKeyword
  | markedOperatorOutsideFn | restNotAllowed | integerTooLarge | expectedLetPattern
  | expectedAssignValue | expectedLiteralAfterMinus | expectedLabel | expectedParamType
  | expectedCallArgs | expectedAssertCondition | expectedStructField
  deriving DecidableEq, Inhabited

namespace IssueCode

def all : List IssueCode :=
  [.unterminatedString, .invalidEscape, .letterDirectlyAfterNumber, .unknownCharacter,
   .unterminatedSourceBlock, .mismatchedOpeningParen, .mismatchedClosingParen, .invalidNumber,
   .markerWithoutOperator, .emptyPrefixedName, .expectedItem, .expectedSemicolon,
   .expectedIdent, .expectedFnName, .expectedParamList, .expectedParamName, .expectedColon,
   .expectedType, .expectedReturnType, .expectedFnBody, .expectedStructName,
   .expectedStructBody, .expectedFieldName, .expectedFieldType, .expectedVariant,
   .expectedConstName, .expectedEquals, .expectedParamDecl, .expectedModuleName,
   .expectedExpression, .expectedOperand, .expectedArrayLength, .expectedTypeArgs,
   .emptyTypeArgs, .emptyGenericParams, .expectedGenericName, .expectedPattern,
   .expectedCondition, .expectedBlock, .expectedElseBranch, .expectedMatchBody,
   .expectedFatArrow, .emptyMatch, .expectedIn, .expectedIterable, .expectedForAfterLabel,
   .expectedFieldAfterDot, .expectedIndex, .expectedFieldValue, .expectedSourceBody,
   .expectedDerivativeBody, .expectedComma, .unexpectedToken, .reservedKeyword,
   .markedOperatorOutsideFn, .restNotAllowed, .integerTooLarge, .expectedLetPattern,
   .expectedAssignValue, .expectedLiteralAfterMinus, .expectedLabel, .expectedParamType,
   .expectedCallArgs, .expectedAssertCondition, .expectedStructField]

def number : IssueCode → Nat
  | .unterminatedString => 1
  | .invalidEscape => 2
  | .letterDirectlyAfterNumber => 3
  | .unknownCharacter => 4
  | .unterminatedSourceBlock => 5
  | .mismatchedOpeningParen => 6
  | .mismatchedClosingParen => 7
  | .invalidNumber => 8
  | .markerWithoutOperator => 9
  | .emptyPrefixedName => 10
  | .expectedItem => 101
  | .expectedSemicolon => 102
  | .expectedIdent => 103
  | .expectedFnName => 104
  | .expectedParamList => 105
  | .expectedParamName => 106
  | .expectedColon => 107
  | .expectedType => 108
  | .expectedReturnType => 109
  | .expectedFnBody => 110
  | .expectedStructName => 111
  | .expectedStructBody => 112
  | .expectedFieldName => 113
  | .expectedFieldType => 114
  | .expectedVariant => 115
  | .expectedConstName => 116
  | .expectedEquals => 117
  | .expectedParamDecl => 118
  | .expectedModuleName => 119
  | .expectedExpression => 120
  | .expectedOperand => 121
  | .expectedArrayLength => 122
  | .expectedTypeArgs => 123
  | .emptyTypeArgs => 124
  | .emptyGenericParams => 125
  | .expectedGenericName => 126
  | .expectedPattern => 127
  | .expectedCondition => 128
  | .expectedBlock => 129
  | .expectedElseBranch => 130
  | .expectedMatchBody => 131
  | .expectedFatArrow => 132
  | .emptyMatch => 133
  | .expectedIn => 134
  | .expectedIterable => 135
  | .expectedForAfterLabel => 136
  | .expectedFieldAfterDot => 137
  | .expectedIndex => 138
  | .expectedFieldValue => 139
  | .expectedSourceBody => 140
  | .expectedDerivativeBody => 141
  | .expectedComma => 142
  | .unexpectedToken => 143
  | .reservedKeyword => 144
  | .markedOperatorOutsideFn => 145
  | .restNotAllowed => 146
  | .integerTooLarge => 147
  | .expectedLetPattern => 148
  | .expectedAssignValue => 149
  | .expectedLiteralAfterMinus => 150
  | .expectedLabel => 151
  | .expectedParamType => 152
  | .expectedCallArgs => 153
  | .expectedAssertCondition => 154
  | .expectedStructField => 155

def name : IssueCode → String
  | .unterminatedString => "UnterminatedString"
  | .invalidEscape => "InvalidEscape"
  | .letterDirectlyAfterNumber => "LetterDirectlyAfterNumber"
  | .unknownCharacter => "UnknownCharacter"
  | .unterminatedSourceBlock => "UnterminatedSourceBlock"
  | .mismatchedOpeningParen => "MismatchedOpeningParen"
  | .mismatchedClosingParen => "MismatchedClosingParen"
  | .invalidNumber => "InvalidNumber"
  | .markerWithoutOperator => "MarkerWithoutOperator"
  | .emptyPrefixedName => "EmptyPrefixedName"
  | .expectedItem => "ExpectedItem"
  | .expectedSemicolon => "ExpectedSemicolon"
  | .expectedIdent => "ExpectedIdent"
  | .expectedFnName => "ExpectedFnName"
  | .expectedParamList => "ExpectedParamList"
  | .expectedParamName => "ExpectedParamName"
  | .expectedColon => "ExpectedColon"
  | .expectedType => "ExpectedType"
  | .expectedReturnType => "ExpectedReturnType"
  | .expectedFnBody => "ExpectedFnBody"
  | .expectedStructName => "ExpectedStructName"
  | .expectedStructBody => "ExpectedStructBody"
  | .expectedFieldName => "ExpectedFieldName"
  | .expectedFieldType => "ExpectedFieldType"
  | .expectedVariant => "ExpectedVariant"
  | .expectedConstName => "ExpectedConstName"
  | .expectedEquals => "ExpectedEquals"
  | .expectedParamDecl => "ExpectedParamDecl"
  | .expectedModuleName => "ExpectedModuleName"
  | .expectedExpression => "ExpectedExpression"
  | .expectedOperand => "ExpectedOperand"
  | .expectedArrayLength => "ExpectedArrayLength"
  | .expectedTypeArgs => "ExpectedTypeArgs"
  | .emptyTypeArgs => "EmptyTypeArgs"
  | .emptyGenericParams => "EmptyGenericParams"
  | .expectedGenericName => "ExpectedGenericName"
  | .expectedPattern => "ExpectedPattern"
  | .expectedCondition => "ExpectedCondition"
  | .expectedBlock => "ExpectedBlock"
  | .expectedElseBranch => "ExpectedElseBranch"
  | .expectedMatchBody => "ExpectedMatchBody"
  | .expectedFatArrow => "ExpectedFatArrow"
  | .emptyMatch => "EmptyMatch"
  | .expectedIn => "ExpectedIn"
  | .expectedIterable => "ExpectedIterable"
  | .expectedForAfterLabel => "ExpectedForAfterLabel"
  | .expectedFieldAfterDot => "ExpectedFieldAfterDot"
  | .expectedIndex => "ExpectedIndex"
  | .expectedFieldValue => "ExpectedFieldValue"
  | .expectedSourceBody => "ExpectedSourceBody"
  | .expectedDerivativeBody => "ExpectedDerivativeBody"
  | .expectedComma => "ExpectedComma"
  | .unexpectedToken => "UnexpectedToken"
  | .reservedKeyword => "ReservedKeyword"
  | .markedOperatorOutsideFn => "MarkedOperatorOutsideFn"
  | .restNotAllowed => "RestNotAllowed"
  | .integerTooLarge => "IntegerTooLarge"
  | .expectedLetPattern => "ExpectedLetPattern"
  | .expectedAssignValue => "ExpectedAssignValue"
  | .expectedLiteralAfterMinus => "ExpectedLiteralAfterMinus"
  | .expectedLabel => "ExpectedLabel"
  | .expectedParamType => "ExpectedParamType"
  | .expectedCallArgs => "ExpectedCallArgs"
  | .expectedAssertCondition => "ExpectedAssertCondition"
  | .expectedStructField => "ExpectedStructField"

def message : IssueCode → String
  | .unterminatedString => "unterminated string literal"
  | .invalidEscape => "invalid escape sequence"
  | .letterDirectlyAfterNumber => "letter directly after number"
  | .unknownCharacter => "unknown character"
  | .unterminatedSourceBlock => "unterminated source block"
  | .mismatchedOpeningParen => "unclosed opening bracket"
  | .mismatchedClosingParen => "closing bracket without an opener"
  | .invalidNumber => "invalid number literal"
  | .markerWithoutOperator => "overload marker must be followed by an overloadable operator"
  | .emptyPrefixedName => "expected a name after the prefix"
  | .expectedItem => "expected an item"
  | .expectedSemicolon => "expected `;`"
  | .expectedIdent => "expected an identifier"
  | .expectedFnName => "expected a function name"
  | .expectedParamList => "expected a parameter list"
  | .expectedParamName => "expected a parameter name"
  | .expectedColon => "expected `:`"
  | .expectedType => "expected a type"
  | .expectedReturnType => "expected a return type after `->`"
  | .expectedFnBody => "expected a function body"
  | .expectedStructName => "expected a struct name"
  | .expectedStructBody => "expected `\x7b` with struct fields"
  | .expectedFieldName => "expected a field name"
  | .expectedFieldType => "expected a field type"
  | .expectedVariant => "expected another struct variant after `|`"
  | .expectedConstName => "expected a constant name"
  | .expectedEquals => "expected `=`"
  | .expectedParamDecl => "expected a `$name` parameter"
  | .expectedModuleName => "expected a module name string"
  | .expectedExpression => "expected an expression"
  | .expectedOperand => "expected an operand after the operator"
  | .expectedArrayLength => "expected `;` and a length in array type"
  | .expectedTypeArgs => "expected type arguments"
  | .emptyTypeArgs => "type argument list is empty"
  | .emptyGenericParams => "generic parameter list is empty"
  | .expectedGenericName => "expected a generic parameter name"
  | .expectedPattern => "expected a pattern"
  | .expectedCondition => "expected a condition"
  | .expectedBlock => "expected a block"
  | .expectedElseBranch => "expected `if` or a block after `else`"
  | .expectedMatchBody => "expected `\x7b` with match arms"
  | .expectedFatArrow => "expected `=>`"
  | .emptyMatch => "match has no arms"
  | .expectedIn => "expected `in`"
  | .expectedIterable => "expected an expression to iterate over"
  | .expectedForAfterLabel => "expected `for` after a loop label"
  | .expectedFieldAfterDot => "expected a field or method name after `.`"
  | .expectedIndex => "expected an index expression"
  | .expectedFieldValue => "expected a field value"
  | .expectedSourceBody => "expected `\x7b` with source text"
  | .expectedDerivativeBody => "expected an expression after the derivative"
  | .expectedComma => "expected `,`"
  | .unexpectedToken => "unexpected token"
  | .reservedKeyword => "reserved keyword cannot be used here"
  | .markedOperatorOutsideFn => "overload-marked operator is only valid as a function name"
  | .restNotAllowed => "`..` is not allowed here"
  | .integerTooLarge => "integer literal does not fit in i32"
  | .expectedLetPattern => "expected a pattern after `let`"
  | .expectedAssignValue => "expected a value after the assignment"
  | .expectedLiteralAfterMinus => "expected a number after `-` in pattern"
  | .expectedLabel => "expected a label"
  | .expectedParamType => "expected a parameter type"
  | .expectedCallArgs => "expected call arguments after type arguments"
  | .expectedAssertCondition => "expected a condition after `assert`"
  | .expectedStructField => "expected a field in struct literal"

def text (c : IssueCode) : String :=
  let digits := toString c.number
  "E" ++ "".pushn '0' (3 - digits.length) ++ digits

def isLexical (c : IssueCode) : Bool := c.number < 100

def ofNumber? (n : Nat) : Option IssueCode := all.find? (·.number == n)

end IssueCode

structure Issue where
  code : IssueCode
  span : Span
  deriving DecidableEq, Inhabited

/-- Problems in the order of their places; those of one place stay in the order of raising. -/
def Issue.sorted (issues : List Issue) : List Issue :=
  issues.mergeSort fun a b => a.span.precedes b.span

end Ember
