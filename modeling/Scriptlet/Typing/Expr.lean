import Scriptlet.Decimal.Numeral
import Scriptlet.Typing.Context

/-!
Typed expressions of syntax trees. The parts of an expression are typed from left to right, and the
first fault ends it.
-/

namespace Scriptlet

/-- The number that a text stands for: an integer if it ends in the mark `n`, else a float. -/
def Literal.ofNumeral? (text : String) : Option Literal :=
  let cs := text.toList
  if cs.getLast? = some 'n' then (Numeral.int128? cs.dropLast).map bigInt
  else (Numeral.float? cs).map number

namespace Diagnostic

/-- A node lacks a part, or stands where its rule has no place. -/
def malformed (rule : Rule) (span : Span) : Diagnostic := ⟨.malformedTree rule.name, span.start⟩

def mismatch (kind : Mismatch) (expected received : Ty) (position : Position) : Diagnostic :=
  ⟨.typeMismatch kind expected.name received.name, position⟩

end Diagnostic

/-- Two types that a rule wants to be the same. -/
def expectType (kind : Mismatch) (expected received : Ty) (position : Position) :
    Except Diagnostic Unit :=
  if expected = received then .ok () else .error (.mismatch kind expected received position)

namespace Node

/-- The type that a node describes. -/
def toType : Node → Except Diagnostic Ty
  | ⟨.type, text, span, _⟩ =>
    match Scalar.ofName? text with
    | some s => .ok (.scalar s)
    | none => .error ⟨.unknownType text, span.start⟩
  | ⟨.arrayType, _, span, children⟩ =>
    match children with
    | [] => .error (.malformed .arrayType span)
    | element :: _ => return .array (← element.toType)
  | ⟨rule, _, span, _⟩ => .error (.malformed rule span)

/-- A node that must be a name. -/
def identifier (n : Node) : Except Diagnostic String :=
  if n.rule = .id then .ok n.text else .error n.malformed

end Node

namespace BinaryOp

/-- The type of an operation on operands of two types. Where the types do not fit, the fault is
reported at the operator. -/
def resultType (op : BinaryOp) (left right : Ty) (position : Position) : Except Diagnostic Ty :=
  match op with
  | equals | notEquals | less | lessEquals | greater | greaterEquals => do
    expectType (.binary op.symbol) left right position
    return .bool
  | add | subtract | coalesce => do
    expectType (.binary op.symbol) left right position
    return left
  | multiply | divide | modulo => do
    expectType (.binary op.symbol) .num left position
    expectType (.binary op.symbol) .num right position
    return .num
  | power => do
    expectType .exponent .num left position
    expectType .exponent .num right position
    return .num

end BinaryOp

/-- The type that an operator takes and gives. -/
def UnaryOp.ty : UnaryOp → Ty
  | negate => .num
  | not => .bool

namespace Expr

def ofBinary (op : Node) (left right : Expr) : Except Diagnostic Expr :=
  match BinaryOp.ofSymbol? op.text with
  | none => .error op.malformed
  | some o => return binary o left right (← o.resultType left.ty right.ty op.start)

def ofUnary (op : Node) (operand : Expr) : Except Diagnostic Expr :=
  match UnaryOp.ofSymbol? op.text with
  | none => .error op.malformed
  | some o => do
    expectType (.unary o.symbol) o.ty operand.ty op.start
    return unary o operand o.ty

/-- Every element has the type of the first. -/
def expectElements (expected : Ty) : List Expr → List Node → Except Diagnostic Unit
  | e :: es, n :: ns =>
    if e.ty = expected then expectElements expected es ns
    else .error ⟨.heterogeneousArray expected.name e.ty.name, n.start⟩
  | _, _ => .ok ()

def ofElements (span : Span) (elements : List Expr) (nodes : List Node) : Except Diagnostic Expr :=
  match elements with
  | [] => .error ⟨.emptyArrayLiteral, span.start⟩
  | first :: rest => do
    expectElements first.ty rest nodes.tail
    return array elements (.array first.ty)

def ofSubscript (baseNode indexNode : Node) (base index : Expr) : Except Diagnostic Expr :=
  match base.ty.element? with
  | none => .error ⟨.invalidSubscript .notAnArray base.ty.name, baseNode.start⟩
  | some element =>
    if index.ty = .num then .ok (subscript base index element)
    else .error ⟨.invalidSubscript .nonNumericIndex index.ty.name, indexNode.start⟩

end Expr

/-- The function that a node names, which must take as many arguments as there are. -/
def Context.callee (ctx : Context) (name : Node) (count : Nat) : Except Diagnostic Signature := do
  let text ← name.identifier
  match ctx.function? text with
  | none => throw ⟨.undeclaredFunction text, name.start⟩
  | some f =>
    if count = f.params.length then return f
    else throw ⟨.arityMismatch f.name f.params.length count, name.start⟩

open CheckM

mutual

/-- The typed expression of a node. -/
def checkExpr : Node → CheckM Expr
  | ⟨.num, text, span, _⟩ =>
    match Literal.ofNumeral? text with
    | some value => return .literal value
    | none => throw ⟨.numberParseError text, span.start⟩
  | ⟨.str, text, _, _⟩ => return .literal (.str text)
  | ⟨.true, _, _, _⟩ => return .literal (.bool true)
  | ⟨.false, _, _, _⟩ => return .literal (.bool false)
  | ⟨.id, text, span, _⟩ => return .var (← reading (·.lookup text span.start))
  | ⟨.binary, _, span, children⟩ =>
    match children with
    | [] => throw (.malformed .binary span)
    | left :: rest => do
      let left ← checkExpr left
      match rest with
      | op :: right :: _ => do
        let right ← checkExpr right
        reading fun _ => Expr.ofBinary op left right
      | _ => throw (.malformed .binary span)
  | ⟨.unary, _, span, children⟩ =>
    match children with
    | op :: operand :: _ => do
      let operand ← checkExpr operand
      reading fun _ => Expr.ofUnary op operand
    | _ => throw (.malformed .unary span)
  | ⟨.arrayLit, _, span, children⟩ => do
    let elements ← checkExprs children
    reading fun _ => Expr.ofElements span elements children
  | ⟨.subscript, _, span, children⟩ =>
    match children with
    | baseNode :: indexNode :: _ => do
      let base ← checkExpr baseNode
      let index ← checkExpr indexNode
      reading fun _ => Expr.ofSubscript baseNode indexNode base index
    | _ => throw (.malformed .subscript span)
  | ⟨.call, _, span, children⟩ => do
    let (f, args) ← checkCall span children
    return .call f.name args f.returnType
  | ⟨rule, _, span, _⟩ => throw (.malformed rule span)

def checkExprs : List Node → CheckM (List Expr)
  | [] => pure []
  | n :: ns => return (← checkExpr n) :: (← checkExprs ns)

/-- The function and the arguments of a call, from the parts of its node. -/
def checkCall (span : Span) : List Node → CheckM (Signature × List Expr)
  | [] => throw (.malformed .call span)
  | name :: args => do
    let f ← reading (·.callee name args.length)
    return (f, ← checkArgs f.name 1 f.params args)

/-- Arguments from the `index`th on, each with the type of its parameter. -/
def checkArgs (function : String) (index : Nat) :
    List Variable → List Node → CheckM (List Expr)
  | param :: params, n :: ns => do
    let arg ← checkExpr n
    if arg.ty = param.ty then
      return arg :: (← checkArgs function (index + 1) params ns)
    else
      throw ⟨.argumentTypeMismatch function index param.ty.name arg.ty.name, n.start⟩
  | _, _ => pure []

end

/-- The typed expression of a node in a context. -/
def Context.expr (ctx : Context) (n : Node) : Except Diagnostic Expr :=
  match checkExpr n ctx with
  | .ok e _ => .ok e
  | .error d _ => .error d

end Scriptlet
