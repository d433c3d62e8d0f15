import Scriptlet.Diagnostic.Basic

/-!
Syntax trees. A node names the rule that it follows and keeps the text and span that it covers;
punctuation is dropped, operators are leaves.
-/

namespace Scriptlet

inductive Rule where
  | program
  | block
  | printStmt
  | varDec
  | assignStmt
  | whileStmt
  | funDec
  | params
  | param
  | returnStmt
  | callStmt
  | type
  | arrayType
  | binary
  | unary
  | call
  | arrayLit
  | subscript
  | id
  | op
  | num
  | str
  | true
  | false
deriving DecidableEq, Repr

namespace Rule

def name : Rule → String
  | program => "Program"
  | block => "Block"
  | printStmt => "PrintStmt"
  | varDec => "VarDec"
  | assignStmt => "AssignStmt"
  | whileStmt => "WhileStmt"
  | funDec => "FunDec"
  | params => "Params"
  | param => "Param"
  | returnStmt => "ReturnStmt"
  | callStmt => "CallStmt"
  | type => "Type"
  | arrayType => "ArrayType"
  | binary => "Binary"
  | unary => "Unary"
  | call => "Call"
  | arrayLit => "ArrayLit"
  | subscript => "Subscript"
  | id => "Id"
  | op => "Op"
  | num => "Num"
  | str => "Str"
  | true => "True"
  | false => "False"

/-- Every rule, in order. -/
def all : List Rule :=
  [program, block, printStmt, varDec, assignStmt, whileStmt, funDec, params, param, returnStmt,
    callStmt, type, arrayType, binary, unary, call, arrayLit, subscript, id, op, num, str, true,
    false]

end Rule

structure Node where
  rule : Rule
  text : String
  span : Span
  children : List Node
deriving Repr

namespace Node

/-- Where the node begins. -/
def start (n : Node) : Position := n.span.start

/-- The node lacks a part that its rule asks for, or stands where its rule has no place. -/
def malformed (n : Node) : Diagnostic := ⟨.malformedTree n.rule.name, n.start⟩

/-- The child at an index. -/
def child (n : Node) (index : Nat) : Except Diagnostic Node :=
  match n.children[index]? with
  | some c => .ok c
  | none => .error n.malformed

end Node

end Scriptlet
