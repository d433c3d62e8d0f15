import Scriptlet.SyntaxTree.Basic
import Scriptlet.SyntaxTree.Cursor
import Scriptlet.SyntaxTree.Grammar
import Scriptlet.Text.Bytes

/-!
How each construct is read. The parts of a construct are goals, and `solve` reads a goal: the
definitions here are open in it, and `Parser.run` closes the knot.
-/

namespace Scriptlet

/-- Reading moves a cursor, also where it fails. -/
abbrev ParseM := EStateM Diagnostic Cursor

/-- What stays the same while a source is read. -/
structure Parser where
  grammar : Grammar
  source : List Char

/-- What a construct asks for: an expression or type whose operators all bind tighter than a given
power, or a statement. -/
inductive Goal where
  | expr (power : Power)
  | type (power : Power)
  | stmt
deriving DecidableEq, Repr

namespace ParseM

def kind : ParseM TokenKind := return (← get).kind

/-- Takes the current token. -/
def advance : ParseM Token := modifyGet fun c => (c.current, c.next)

def unexpected {α : Type} : ParseM α := do throw (← get).unexpected

def unexpectedDetailed {α : Type} (message : String) : ParseM α := do
  throw ((← get).unexpectedDetailed message)

/-- The depth or number of steps that the tokens allow is used up. -/
def tooDeep {α : Type} : ParseM α := do throw ⟨.nestingTooDeep, (← get).start⟩

/-- Takes the current token if it has the kind, and fails with `d` if not. -/
def expectOr (kind : TokenKind) (d : Diagnostic) : ParseM Token := do
  if (← ParseM.kind) = kind then advance else throw d

/-- Takes the current token, which must have the kind. -/
def expect (kind : TokenKind) : ParseM Token := do expectOr kind (← get).unexpected

/-- The node of one token. -/
def leaf (rule : Rule) (t : Token) : Node := ⟨rule, t.value, t.span, []⟩

/-- Items with commas between them, one at least, `n` at most. -/
def commaSeparated (item : ParseM Node) : Nat → ParseM (List Node)
  | 0 => tooDeep
  | n + 1 => do
    let node ← item
    if (← kind) = .comma then
      let _ ← advance
      return node :: (← commaSeparated item n)
    else
      return [node]

/-- Statements up to the closing parenthesis of a block, fewer than `n`. -/
def untilClosed (stmt : ParseM Node) : Nat → ParseM (List Node)
  | 0 => tooDeep
  | n + 1 => do
    match ← kind with
    | .closeParen => return []
    | .endOfText => unexpectedDetailed "expected `)` to close the block"
    | _ => return (← stmt) :: (← untilClosed stmt n)

/-- Statements up to the end of the text, fewer than `n`. -/
def untilEnd (stmt : ParseM Node) : Nat → ParseM (List Node)
  | 0 => tooDeep
  | n + 1 => do
    if (← kind) = .endOfText then
      return []
    else
      return (← stmt) :: (← untilEnd stmt n)

end ParseM

open ParseM

namespace Parser

/-- The text from byte `start` to byte `stop`, cut to the source. It is empty if an end falls inside
a character. -/
def textBetween (p : Parser) (start stop : Nat) : String :=
  let size := Text.byteLength p.source
  let first := min start size
  let last := max first (min stop size)
  String.ofList ((Text.slice? first last p.source).getD [])

/-- The node from `start` to the token before the current one. -/
def finish (p : Parser) (rule : Rule) (start : Position) (children : List Node) : ParseM Node := do
  let stop := (← get).previousEnd
  return ⟨rule, p.textBetween start.offset.toNat stop.offset.toNat, ⟨start, stop⟩, children⟩

section

variable (p : Parser) (solve : Goal → ParseM Node)

/-- Expressions with commas between them, none perhaps, and the token that closes them. -/
def exprList (close : TokenKind) : ParseM (List Node) := do
  let items ← if (← kind) = close then pure [] else
    commaSeparated (solve (.expr .default)) (← get).remaining
  let _ ← expect close
  return items

/-- A parameter: its name and its type. -/
def param : ParseM Node := do
  let name ← expect .identifier
  let _ ← expect .colon
  let type ← solve (.type .default)
  p.finish .param name.span.start [leaf .id name, type]

/-- Parameters in parentheses. -/
def params : ParseM Node := do
  let start := (← expect .openParen).span.start
  let items ← if (← kind) = .closeParen then pure [] else
    commaSeparated (p.param solve) (← get).remaining
  let _ ← expect .closeParen
  p.finish .params start items

/-- Statements in parentheses. -/
def block : ParseM Node := do
  let start := (← expect .openParen).span.start
  let statements ← untilClosed (solve .stmt) (← get).remaining
  let _ ← expect .closeParen
  p.finish .block start statements

def primary : ParseM Node := do
  let rule ← match ← kind with
    | .number => pure Rule.num
    | .identifier => pure Rule.id
    | .string => pure Rule.str
    | .trueWord => pure Rule.true
    | .falseWord => pure Rule.false
    | _ => unexpected
  return leaf rule (← advance)

def unary : ParseM Node := do
  let operator ← advance
  let operand ← solve (.expr .unary)
  p.finish .unary operator.span.start [leaf .op operator, operand]

/-- Parentheses leave no trace in the tree. -/
def grouping : ParseM Node := do
  let _ ← advance
  let inner ← solve (.expr .default)
  let _ ← expect .closeParen
  return inner

def array : ParseM Node := do
  let start := (← advance).span.start
  let elements ← exprList solve .closeBracket
  p.finish .arrayLit start elements

def namedType : ParseM Node := return leaf .type (← expect .identifier)

def declaration : ParseM Node := do
  let start := (← advance).span.start
  let name ← expectOr .identifier
    ((← get).unexpectedDetailed "expected identifier during variable declaration")
  let _ ← expect .assignment
  let initializer ← solve (.expr .default)
  let _ ← expect .semicolon
  p.finish .varDec start [leaf .id name, initializer]

def print : ParseM Node := do
  let start := (← advance).span.start
  let _ ← expect .openParen
  let argument ← solve (.expr .default)
  let _ ← expect .closeParen
  let _ ← expect .semicolon
  p.finish .printStmt start [argument]

def loop : ParseM Node := do
  let start := (← advance).span.start
  let test ← solve (.expr .default)
  let _ ← expect .colon
  let body ← p.block solve
  p.finish .whileStmt start [test, body]

def result : ParseM Node := do
  let start := (← advance).span.start
  let value ← if (← kind) = .semicolon then pure [] else
    pure [← solve (.expr .default)]
  let _ ← expect .semicolon
  p.finish .returnStmt start value

def function : ParseM Node := do
  let start := (← advance).span.start
  let name ← expect .identifier
  let params ← p.params solve
  let type ← if (← kind) = .arrow then
    let _ ← advance
    pure [← solve (.type .default)]
  else
    pure []
  let _ ← expect .colon
  let body ← p.block solve
  p.finish .funDec start (leaf .id name :: params :: type ++ [body])

/-- A statement that no reserved word begins: an assignment or a call. -/
def simpleStatement : ParseM Node := do
  let expr ← solve (.expr .default)
  if (← kind) = .assignment then
    if expr.rule = .id ∨ expr.rule = .subscript then
      let _ ← advance
      let source ← solve (.expr .default)
      let _ ← expect .semicolon
      p.finish .assignStmt expr.start [expr, source]
    else
      throw ⟨.unexpectedTokenDetailed expr.text
        "only variables and array elements can be assigned to", expr.start⟩
  else if expr.rule = .call then
    let _ ← expect .semicolon
    p.finish .callStmt expr.start [expr]
  else
    throw ⟨.unexpectedTokenDetailed expr.text "expected an assignment or a function call",
      expr.start⟩

/-- The construct that the current token begins. -/
def leading : Leading → ParseM Node
  | .primary => primary
  | .unary => p.unary solve
  | .grouping => grouping solve
  | .array => p.array solve
  | .namedType => namedType
  | .statement => solve .stmt
  | .declaration => p.declaration solve
  | .print => p.print solve
  | .loop => p.loop solve
  | .result => p.result solve
  | .block => p.block solve
  | .function => p.function solve

/-- An operator and its right operand, whose operators bind tighter than `power`. -/
def binary (left : Node) (power : Power) : ParseM Node := do
  let operator ← advance
  let right ← solve (.expr power)
  p.finish .binary left.start [left, leaf .op operator, right]

/-- A comparison, which no other one may follow. -/
def comparison (left : Node) (power : Power) : ParseM Node := do
  let node ← p.binary solve left power
  if (← kind).isRelational then
    unexpectedDetailed "comparison operators cannot be chained"
  else
    return node

def call (left : Node) : ParseM Node := do
  if left.rule = .id then
    let _ ← advance
    let arguments ← exprList solve .closeParen
    p.finish .call left.start (left :: arguments)
  else
    unexpectedDetailed "only named functions can be called"

def subscript (left : Node) : ParseM Node := do
  let _ ← advance
  let index ← solve (.expr .default)
  let _ ← expect .closeBracket
  p.finish .subscript left.start [left, index]

def arrayType (left : Node) : ParseM Node := do
  let _ ← expect .openBracket
  let _ ← expect .closeBracket
  p.finish .arrayType left.start [left]

/-- The construct that continues `left` at the current token, whose power is given. -/
def trailing (left : Node) (power : Power) : Trailing → ParseM Node
  | .binary => p.binary solve left power
  | .comparison => p.comparison solve left power
  | .exponent => p.binary solve left .unary
  | .call => p.call solve left
  | .subscript => p.subscript solve left
  | .arrayType => p.arrayType left

/-- Continues `left` as long as the current token binds tighter than `power`, in fewer than `n`
steps. -/
def extend (ops : Operators) (power : Power) : Nat → Node → ParseM Node
  | 0, _ => tooDeep
  | n + 1, left => do
    let kind ← ParseM.kind
    if power < ops.power kind then
      match ops.trailing kind with
      | none => unexpected
      | some t => extend ops power n (← p.trailing solve left (ops.power kind) t)
    else
      return left

/-- A construct of the family and all that continues it. -/
def operand (ops : Operators) (power : Power) : ParseM Node := do
  match ops.leading (← kind) with
  | none => unexpected
  | some l =>
    let left ← p.leading solve l
    p.extend solve ops power (← get).remaining left

def statement : ParseM Node := do
  match p.grammar.statement (← kind) with
  | some l => p.leading solve l
  | none => p.simpleStatement solve

/-- Reads a goal, given how the goals within it are read. -/
def step : Goal → ParseM Node
  | .expr power => p.operand solve p.grammar.expressions power
  | .type power => p.operand solve p.grammar.types power
  | .stmt => p.statement solve

end

end Parser

end Scriptlet
