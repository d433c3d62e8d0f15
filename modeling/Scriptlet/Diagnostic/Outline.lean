import Scriptlet.Diagnostic.Basic

/-! The outline of a cause: its name and its parts. -/

namespace Scriptlet

private def quotedAtom (s : String) : Outline := .atom (Text.quote s)

private def countAtom (n : Nat) : Outline := .atom (toString n)

def Mismatch.outline : Mismatch → Outline
  | binary operator => .tuple "Binary" [quotedAtom operator]
  | unary operator => .tuple "Unary" [quotedAtom operator]
  | exponent => .atom "Exponent"
  | returned => .atom "Return"
  | assignment => .atom "Assignment"
  | condition => .atom "Condition"

def SubscriptFault.outline : SubscriptFault → Outline
  | notAnArray => .atom "NotAnArray"
  | nonNumericIndex => .atom "NonNumericIndex"

namespace Cause

/-- The labelled parts of a cause, in order. -/
def fields : Cause → List (String × Outline)
  | unrecognisedToken token => [("token", quotedAtom token)]
  | unexpectedToken token => [("token", quotedAtom token)]
  | unexpectedTokenDetailed token message =>
    [("token", quotedAtom token), ("message", quotedAtom message)]
  | numberParseError token => [("token", quotedAtom token)]
  | unknownType type => [("type_", quotedAtom type)]
  | malformedTree rule => [("rule", quotedAtom rule)]
  | unknownOutputType requested => [("requested", quotedAtom requested)]
  | undeclaredName name => [("name", quotedAtom name)]
  | duplicateDeclaration name => [("name", quotedAtom name)]
  | duplicateFunction function => [("function", quotedAtom function)]
  | undeclaredFunction function => [("function", quotedAtom function)]
  | arityMismatch function expected received =>
    [("function", quotedAtom function), ("expected", countAtom expected),
      ("received", countAtom received)]
  | argumentTypeMismatch function index expected received =>
    [("function", quotedAtom function), ("index", countAtom index),
      ("expected", quotedAtom expected), ("received", quotedAtom received)]
  | typeMismatch kind expected received =>
    [("kind", kind.outline), ("expected", quotedAtom expected), ("received", quotedAtom received)]
  | invalidSubscript fault received =>
    [("fault", fault.outline), ("received", quotedAtom received)]
  | emptyArrayLiteral => []
  | heterogeneousArray expected received =>
    [("expected", quotedAtom expected), ("received", quotedAtom received)]
  | returnOutsideFunction => []
  | missingRequiredReturn function returnType =>
    [("function", quotedAtom function), ("return_type", quotedAtom returnType)]
  | voidReturnsValue => []
  | nestingTooDeep => []

/-- A cause without parts is its name alone. -/
def outline (cause : Cause) : Outline :=
  match cause.fields with
  | [] => .atom cause.name
  | fields => .record cause.name fields

end Cause

end Scriptlet
