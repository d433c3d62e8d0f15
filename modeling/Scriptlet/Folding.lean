import Scriptlet.Program.Basic

/-!
Constant folding. Operands are folded first, then the operation over them is computed where both are
literals, or made simpler. What cannot be folded stays.
-/

namespace Scriptlet

namespace Literal

/-- A number of either kind as a float. -/
def toFloat? : Literal → Option Float
  | number value => some value
  | bigInt value => some value.toFloat
  | _ => none

/-- Arithmetic on integers, where the exact result fits. -/
def wideArithmetic? : BinaryOp → Int128 → Int128 → Option Int128
  | .add, a, b => a.add? b
  | .subtract, a, b => a.sub? b
  | .multiply, a, b => a.mul? b
  | .divide, a, b => a.div? b
  | _, _, _ => none

def floatArithmetic? : BinaryOp → Float → Float → Option Float
  | .add, a, b => some (a + b)
  | .subtract, a, b => some (a - b)
  | .multiply, a, b => some (a * b)
  | .divide, a, b => some (a / b)
  | _, _, _ => none

/-- Sums, differences, products and quotients of two numbers. Two integers give an integer, any
other pair a float. -/
def arithmetic? (op : BinaryOp) : Literal → Literal → Option Literal
  | bigInt a, bigInt b => (wideArithmetic? op a b).map bigInt
  | a, b => do return number (← floatArithmetic? op (← a.toFloat?) (← b.toFloat?))

def negate? : Literal → Option Literal
  | number value => some (number (-value))
  | bigInt value => value.neg?.map bigInt
  | _ => none

def isNullish : Literal → Bool
  | null | undefined => true
  | _ => false

end Literal

namespace Expr

/-- The value of an operation on two literals. -/
def constant? (op : BinaryOp) : Expr → Expr → Option Literal
  | literal a, literal b => Literal.arithmetic? op a b
  | _, _ => none

/-- A zero from which something is subtracted turns the difference into a negation, and a left
operand without value gives way to the right one. -/
def simplifyBinary (op : BinaryOp) (left right : Expr) (ty : Ty) : Expr :=
  match op, left with
  | .subtract, literal a => if a.isZero then unary .negate right ty else binary op left right ty
  | .coalesce, literal a => if a.isNullish then right else binary op left right ty
  | _, _ => binary op left right ty

/-- An operation over folded operands. -/
def foldBinary (op : BinaryOp) (left right : Expr) (ty : Ty) : Expr :=
  match constant? op left right with
  | some value => literal value
  | none => simplifyBinary op left right ty

def foldUnary (op : UnaryOp) (operand : Expr) (ty : Ty) : Expr :=
  match op, operand with
  | .negate, literal a => match a.negate? with
    | some value => literal value
    | none => unary op operand ty
  | _, _ => unary op operand ty

mutual

def fold : Expr → Expr
  | literal value => literal value
  | var v => var v
  | binary op left right ty => foldBinary op left.fold right.fold ty
  | unary op operand ty => foldUnary op operand.fold ty
  | array elements ty => array (foldAll elements) ty
  | subscript base index ty => subscript base.fold index.fold ty
  | call name args ty => call name (foldAll args) ty

def foldAll : List Expr → List Expr
  | [] => []
  | e :: es => e.fold :: foldAll es

end

theorem foldAll_eq_map (es : List Expr) : foldAll es = es.map fold := by
  induction es with
  | nil => rfl
  | cons e es ih => simp [foldAll, ih]

end Expr

namespace Stmt

mutual

def fold : Stmt → Stmt
  | print argument => print argument.fold
  | varDec v initializer => varDec v initializer.fold
  | assign target source => assign target.fold source.fold
  | loop test body => loop test.fold (foldAll body)
  | funDec signature body => funDec signature (foldAll body)
  | result expression => result (expression.map Expr.fold)
  | call name args ty => call name (Expr.foldAll args) ty

def foldAll : List Stmt → List Stmt
  | [] => []
  | s :: ss => s.fold :: foldAll ss

end

theorem foldAll_eq_map (ss : List Stmt) : foldAll ss = ss.map fold := by
  induction ss with
  | nil => rfl
  | cons s ss ih => simp [foldAll, ih]

end Stmt

def Program.fold (p : Program) : Program := ⟨Stmt.foldAll p.statements⟩

end Scriptlet
