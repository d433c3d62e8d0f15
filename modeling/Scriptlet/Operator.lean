/-! The operators of expressions. -/

namespace Scriptlet

inductive BinaryOp where
  | equals
  | notEquals
  | less
  | lessEquals
  | greater
  | greaterEquals
  | add
  | subtract
  | multiply
  | divide
  | modulo
  | power
  /-- The right operand where the left one has no value. No source text has a token for it. -/
  | coalesce
deriving DecidableEq, Repr

namespace BinaryOp

def symbol : BinaryOp → String
  | equals => "=="
  | notEquals => "!="
  | less => "<"
  | lessEquals => "<="
  | greater => ">"
  | greaterEquals => ">="
  | add => "+"
  | subtract => "-"
  | multiply => "*"
  | divide => "/"
  | modulo => "%"
  | power => "**"
  | coalesce => "??"

def ofSymbol? (symbol : String) : Option BinaryOp :=
  match symbol with
  | "==" => some equals
  | "!=" => some notEquals
  | "<" => some less
  | "<=" => some lessEquals
  | ">" => some greater
  | ">=" => some greaterEquals
  | "+" => some add
  | "-" => some subtract
  | "*" => some multiply
  | "/" => some divide
  | "%" => some modulo
  | "**" => some power
  | "??" => some coalesce
  | _ => none

def name : BinaryOp → String
  | equals => "Equals"
  | notEquals => "NotEquals"
  | less => "Less"
  | lessEquals => "LessEquals"
  | greater => "Greater"
  | greaterEquals => "GreaterEquals"
  | add => "Add"
  | subtract => "Subtract"
  | multiply => "Multiply"
  | divide => "Divide"
  | modulo => "Modulo"
  | power => "Power"
  | coalesce => "Coalesce"

def isRelational : BinaryOp → Bool
  | equals | notEquals | less | lessEquals | greater | greaterEquals => true
  | _ => false

theorem ofSymbol?_symbol (op : BinaryOp) : ofSymbol? op.symbol = some op := by cases op <;> rfl

end BinaryOp

inductive UnaryOp where
  | negate
  | not
deriving DecidableEq, Repr

namespace UnaryOp

def symbol : UnaryOp → String
  | negate => "-"
  | not => "!"

def ofSymbol? (symbol : String) : Option UnaryOp :=
  match symbol with
  | "-" => some negate
  | "!" => some not
  | _ => none

def name : UnaryOp → String
  | negate => "Negate"
  | not => "Not"

theorem ofSymbol?_symbol (op : UnaryOp) : ofSymbol? op.symbol = some op := by cases op <;> rfl

end UnaryOp

end Scriptlet
