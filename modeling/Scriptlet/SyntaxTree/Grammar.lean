import Scriptlet.Token.Basic

/-!
Grammars as data: which construct a token begins, which one it continues, and how tightly it binds.
-/

namespace Scriptlet

/-- How tightly an operator binds, from loose to tight. -/
inductive Power where
  | default
  | relational
  | additive
  | multiplicative
  | unary
  | exponential
  | call
  | primary
deriving DecidableEq, Repr

namespace Power

def rank : Power → Nat
  | default => 0
  | relational => 1
  | additive => 2
  | multiplicative => 3
  | unary => 4
  | exponential => 5
  | call => 6
  | primary => 7

instance : LT Power := ⟨fun a b => a.rank < b.rank⟩

instance (a b : Power) : Decidable (a < b) := inferInstanceAs (Decidable (a.rank < b.rank))

def name : Power → String
  | default => "Default"
  | relational => "Relational"
  | additive => "Additive"
  | multiplicative => "Multiplicative"
  | unary => "Unary"
  | exponential => "Exponential"
  | call => "Call"
  | primary => "Primary"

/-- Every power, from loose to tight. -/
def all : List Power :=
  [default, relational, additive, multiplicative, unary, exponential, call, primary]

end Power

/-- Constructs that a token begins. -/
inductive Leading where
  | primary
  | unary
  | grouping
  | array
  | namedType
  | statement
  | declaration
  | print
  | loop
  | result
  | block
  | function
deriving DecidableEq, Repr

/-- Constructs that continue a node to their left. -/
inductive Trailing where
  | binary
  | comparison
  | exponent
  | call
  | subscript
  | arrayType
deriving DecidableEq, Repr

/-- The constructs of one family, by the token that begins or continues them. -/
structure Operators where
  leading : TokenKind → Option Leading
  trailing : TokenKind → Option Trailing
  power : TokenKind → Power

namespace Operators

def empty : Operators := ⟨fun _ => none, fun _ => none, fun _ => .default⟩

def setLeading (ops : Operators) (kind : TokenKind) (l : Leading) : Operators :=
  { ops with leading := fun k => if k = kind then some l else ops.leading k }

/-- A construct that continues comes with the power of its token. -/
def setTrailing (ops : Operators) (kind : TokenKind) (power : Power) (t : Trailing) : Operators :=
  { ops with
    trailing := fun k => if k = kind then some t else ops.trailing k
    power := fun k => if k = kind then power else ops.power k }

/-- Literals and names, signs before an operand, grouping and arrays; comparisons bind loosest, then
sums, products, powers, and calls and subscripts. -/
def expressions : Operators where
  leading
    | .number | .identifier | .string | .trueWord | .falseWord => some .primary
    | .dash | .bang => some .unary
    | .openParen => some .grouping
    | .openBracket => some .array
    | _ => none
  trailing
    | .less | .lessEquals | .greater | .greaterEquals | .equals | .notEquals => some .comparison
    | .plus | .dash | .star | .slash | .percent => some .binary
    | .starStar => some .exponent
    | .openParen => some .call
    | .openBracket => some .subscript
    | _ => none
  power
    | .less | .lessEquals | .greater | .greaterEquals | .equals | .notEquals => .relational
    | .plus | .dash => .additive
    | .star | .slash | .percent => .multiplicative
    | .starStar => .exponential
    | .openParen | .openBracket => .call
    | _ => .default

/-- Names of types, and brackets after them. -/
def types : Operators where
  leading
    | .identifier => some .namedType
    | _ => none
  trailing
    | .openBracket => some .arrayType
    | _ => none
  power
    | .openBracket => .call
    | _ => .default

end Operators

structure Grammar where
  statement : TokenKind → Option Leading
  expressions : Operators
  types : Operators

namespace Grammar

def empty : Grammar := ⟨fun _ => none, .empty, .empty⟩

def setStatement (g : Grammar) (kind : TokenKind) (l : Leading) : Grammar :=
  { g with statement := fun k => if k = kind then some l else g.statement k }

/-- The grammar of the language. -/
def standard : Grammar where
  statement
    | .letWord => some .declaration
    | .printWord => some .print
    | .whileWord => some .loop
    | .funWord => some .function
    | .returnWord => some .result
    | _ => none
  expressions := .expressions
  types := .types

end Grammar

end Scriptlet
