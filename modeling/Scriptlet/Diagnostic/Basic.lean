import Scriptlet.Outline
import Scriptlet.Position
import Scriptlet.Text.Quoted

/-!
Diagnostics: what is wrong with a program and where. A cause has a name, a message and perhaps a
tip.
-/

namespace Scriptlet

/-- The rule that two types fail to meet. -/
inductive Mismatch where
  | binary (operator : String)
  | unary (operator : String)
  | exponent
  | returned
  | assignment
  | condition
deriving DecidableEq, Repr

inductive SubscriptFault where
  | notAnArray
  | nonNumericIndex
deriving DecidableEq, Repr

inductive Cause where
  | unrecognisedToken (token : String)
  | unexpectedToken (token : String)
  | unexpectedTokenDetailed (token message : String)
  | numberParseError (token : String)
  | unknownType (type : String)
  | malformedTree (rule : String)
  | unknownOutputType (requested : String)
  | undeclaredName (name : String)
  | duplicateDeclaration (name : String)
  | duplicateFunction (function : String)
  | undeclaredFunction (function : String)
  | arityMismatch (function : String) (expected received : Nat)
  | argumentTypeMismatch (function : String) (index : Nat) (expected received : String)
  | typeMismatch (kind : Mismatch) (expected received : String)
  | invalidSubscript (fault : SubscriptFault) (received : String)
  | emptyArrayLiteral
  | heterogeneousArray (expected received : String)
  | returnOutsideFunction
  | missingRequiredReturn (function returnType : String)
  | voidReturnsValue
  /-- The constructs are nested beyond the depth that the parser is allowed. -/
  | nestingTooDeep
deriving DecidableEq, Repr

structure Diagnostic where
  cause : Cause
  position : Position
deriving DecidableEq, Repr

def Mismatch.describe : Mismatch → String
  | binary operator => "operator `" ++ operator ++ "`"
  | unary operator => "unary operator `" ++ operator ++ "`"
  | exponent => "operator `**`"
  | returned => "return type"
  | assignment => "assignment"
  | condition => "loop condition"

def SubscriptFault.describe : SubscriptFault → String
  | notAnArray => "only arrays can be subscripted"
  | nonNumericIndex => "array index must be a number"

namespace Cause

def name : Cause → String
  | unrecognisedToken .. => "UnrecognisedToken"
  | unexpectedToken .. => "UnexpectedToken"
  | unexpectedTokenDetailed .. => "UnexpectedTokenDetailed"
  | numberParseError .. => "NumberParseError"
  | unknownType .. => "UnknownType"
  | malformedTree .. => "MalformedTree"
  | unknownOutputType .. => "UnknownOutputType"
  | undeclaredName .. => "UndeclaredName"
  | duplicateDeclaration .. => "DuplicateDeclaration"
  | duplicateFunction .. => "DuplicateFunction"
  | undeclaredFunction .. => "UndeclaredFunction"
  | arityMismatch .. => "ArityMismatch"
  | argumentTypeMismatch .. => "ArgumentTypeMismatch"
  | typeMismatch .. => "TypeMismatch"
  | invalidSubscript .. => "InvalidSubscript"
  | emptyArrayLiteral => "EmptyArrayLiteral"
  | heterogeneousArray .. => "HeterogeneousArray"
  | returnOutsideFunction => "ReturnOutsideFunction"
  | missingRequiredReturn .. => "MissingRequiredReturn"
  | voidReturnsValue => "VoidReturnsValue"
  | nestingTooDeep => "NestingTooDeep"

/-- What is wrong, in one line. Tokens are quoted, names stand between backquotes. -/
def message : Cause → String
  | unrecognisedToken token => "unrecognised token: " ++ Text.quote token
  | unexpectedToken token => "unexpected token: " ++ Text.quote token
  | unexpectedTokenDetailed token message =>
    "unexpected token (" ++ message ++ "): " ++ Text.quote token
  | numberParseError token => "error parsing number: " ++ Text.quote token
  | unknownType type => "unknown type `" ++ type ++ "`"
  | malformedTree rule => "malformed syntax tree at `" ++ rule ++ "` node"
  | unknownOutputType requested => "unknown output type `" ++ requested ++ "`"
  | undeclaredName name => "identifier `" ++ name ++ "` has not been declared"
  | duplicateDeclaration name => "variable `" ++ name ++ "` already declared in this scope"
  | duplicateFunction function => "function `" ++ function ++ "` already declared"
  | undeclaredFunction function => "function `" ++ function ++ "` not declared"
  | arityMismatch function expected received =>
    "function `" ++ function ++ "` expects " ++ toString expected ++ " arguments but got " ++
      toString received
  | argumentTypeMismatch function index expected received =>
    "argument " ++ toString index ++ " of `" ++ function ++ "` expects type `" ++ expected ++
      "` but got `" ++ received ++ "`"
  | typeMismatch kind expected received =>
    "type mismatch in " ++ kind.describe ++ ": expected `" ++ expected ++ "`, received `" ++
      received ++ "`"
  | invalidSubscript fault received => fault.describe ++ ", received `" ++ received ++ "`"
  | emptyArrayLiteral => "empty arrays are not allowed"
  | heterogeneousArray expected received =>
    "array elements must share one type: expected `" ++ expected ++ "`, received `" ++ received ++
      "`"
  | returnOutsideFunction => "return statement not inside a function"
  | missingRequiredReturn function returnType =>
    "function `" ++ function ++ "` must return a `" ++ returnType ++ "`"
  | voidReturnsValue => "a void function cannot return a value"
  | nestingTooDeep => "constructs are nested too deeply"

/-- What may help, where there is something to say. -/
def tip? : Cause → Option String
  | unrecognisedToken .. => none
  | unexpectedToken token =>
    some ("Unexpected token: `" ++ token ++ "`, did you miss a semicolon?")
  | unexpectedTokenDetailed token message =>
    some ("Unexpected token: `" ++ token ++ "`, " ++ message)
  | numberParseError token =>
    some ("Invalid number: `" ++ token ++ "`, is it outside the representable range?")
  | unknownType type =>
    some ("Unknown type `" ++ type ++ "`, expected one of num, str, bool, void, any")
  | malformedTree .. => none
  | unknownOutputType .. => some "Output type must be one of parsed, analyzed, optimized, js"
  | undeclaredName name => some ("Declare `" ++ name ++ "` with `let` before using it")
  | duplicateDeclaration name => some ("Assign to `" ++ name ++ "` instead of declaring it again")
  | duplicateFunction function => some ("Rename one of the `" ++ function ++ "` functions")
  | undeclaredFunction function =>
    some ("Functions must be declared before they are called, `" ++ function ++ "` was not")
  | arityMismatch _ expected received =>
    some ("Expected " ++ toString expected ++ " arguments, received " ++ toString received)
  | argumentTypeMismatch _ _ expected received =>
    some ("Expected argument type `" ++ expected ++ "`, received `" ++ received ++ "`")
  | typeMismatch _ expected received =>
    some ("Expected type `" ++ expected ++ "`, received `" ++ received ++ "`")
  | invalidSubscript .. => none
  | emptyArrayLiteral => some "Array literals need at least one element to infer their type"
  | heterogeneousArray expected _ =>
    some ("Every element must have the type of the first, `" ++ expected ++ "`")
  | returnOutsideFunction => none
  | missingRequiredReturn _ returnType =>
    some ("Add a `return` of type `" ++ returnType ++ "` to the function body")
  | voidReturnsValue => some "Remove the value or declare a return type with `->`"
  | nestingTooDeep => none

end Cause

end Scriptlet
