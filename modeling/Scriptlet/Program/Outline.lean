import Scriptlet.Decimal.Layout
import Scriptlet.Program.Basic
import Scriptlet.Text.Quoted

/-! The outlines of typed programs. -/

namespace Scriptlet

/-- Numbers in outlines: in full from a ten-thousandth to below ten to the sixteenth, always with a
point there. -/
def Layout.outline : Layout where
  leastPlain := -4
  greatestPlain := 15
  wholeEnd := ['.', '0']
  powerSign := []
  zero := "0.0".toList
  negativeZero := "-0.0".toList
  nan := "NaN".toList
  infinity := "inf".toList

def Literal.outline : Literal → Outline
  | number value => .tuple "Number" [.atom (Layout.outline.ofFloat value)]
  | bigInt value => .tuple "BigInt" [.atom (toString value)]
  | str value => .tuple "Str" [.atom (Text.quote value)]
  | bool value => .tuple "Bool" [.atom (toString value)]
  | null => .atom "Null"
  | undefined => .atom "Undefined"

def Variable.outline (v : Variable) : Outline :=
  .record "Variable" [("name", .atom (Text.quote v.name)), ("ty", v.ty.outline)]

/-- A call, in an expression or alone. -/
def callOutline (name : String) (args : List Outline) (ty : Ty) : Outline :=
  .tuple "Call" [.record "Call"
    [("name", .atom (Text.quote name)), ("args", .list args), ("ty", ty.outline)]]

mutual

def Expr.outline : Expr → Outline
  | .literal value => .tuple "Literal" [value.outline]
  | .var v => .tuple "Variable" [v.outline]
  | .binary op left right ty =>
    .tuple "Binary" [.record "BinaryExp"
      [("op", .atom op.name), ("left", left.outline), ("right", right.outline),
        ("ty", ty.outline)]]
  | .unary op operand ty =>
    .tuple "Unary" [.record "UnaryExp"
      [("op", .atom op.name), ("operand", operand.outline), ("ty", ty.outline)]]
  | .array elements ty =>
    .tuple "Array" [.record "ArrayExp"
      [("elements", .list (Expr.outlines elements)), ("ty", ty.outline)]]
  | .subscript base index ty =>
    .tuple "Subscript" [.record "SubscriptExp"
      [("array", base.outline), ("index", index.outline), ("ty", ty.outline)]]
  | .call name args ty => callOutline name (Expr.outlines args) ty

def Expr.outlines : List Expr → List Outline
  | [] => []
  | e :: es => e.outline :: Expr.outlines es

end

def Signature.outline (f : Signature) : Outline :=
  .record "Fun" [("name", .atom (Text.quote f.name)),
    ("params", .list (f.params.map Variable.outline)), ("return_type", f.returnType.outline)]

mutual

def Stmt.outline : Stmt → Outline
  | .print argument => .tuple "Print" [.record "PrintStmt" [("argument", argument.outline)]]
  | .varDec v initializer =>
    .tuple "VarDec" [.record "VarDec"
      [("variable", v.outline), ("initializer", initializer.outline)]]
  | .assign target source =>
    .tuple "Assign" [.record "AssignStmt"
      [("target", target.outline), ("source", source.outline)]]
  | .loop test body =>
    .tuple "While" [.record "WhileStmt"
      [("test", test.outline), ("body", .list (Stmt.outlines body))]]
  | .funDec signature body =>
    .tuple "FunDec" [.record "FunDec"
      [("fun", signature.outline), ("body", .list (Stmt.outlines body))]]
  | .result expression =>
    let value := match expression with
      | none => .atom "None"
      | some e => .tuple "Some" [e.outline]
    .tuple "Return" [.record "ReturnStmt" [("expression", value)]]
  | .call name args ty => callOutline name (Expr.outlines args) ty

def Stmt.outlines : List Stmt → List Outline
  | [] => []
  | s :: ss => s.outline :: Stmt.outlines ss

end

def Program.outline (p : Program) : Outline :=
  .record "Program" [("statements", .list (Stmt.outlines p.statements))]

end Scriptlet
