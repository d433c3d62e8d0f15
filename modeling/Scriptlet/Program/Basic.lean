import Scriptlet.Operator
import Scriptlet.Program.Literal

/-! Typed programs: every expression carries its type, and a name carries the type it was given. -/

namespace Scriptlet

structure Variable where
  name : String
  ty : Ty
deriving DecidableEq, Repr

inductive Expr where
  | literal (value : Literal)
  | var (v : Variable)
  | binary (op : BinaryOp) (left right : Expr) (ty : Ty)
  | unary (op : UnaryOp) (operand : Expr) (ty : Ty)
  | array (elements : List Expr) (ty : Ty)
  /-- The type is the one of the elements. -/
  | subscript (base index : Expr) (ty : Ty)
  /-- The type is the one that the function returns. -/
  | call (name : String) (args : List Expr) (ty : Ty)

def Expr.ty : Expr → Ty
  | literal value => value.ty
  | var v => v.ty
  | binary _ _ _ ty => ty
  | unary _ _ ty => ty
  | array _ ty => ty
  | subscript _ _ ty => ty
  | call _ _ ty => ty

/-- What a function takes and returns. -/
structure Signature where
  name : String
  params : List Variable
  returnType : Ty
deriving DecidableEq, Repr

inductive Stmt where
  | print (argument : Expr)
  | varDec (v : Variable) (initializer : Expr)
  | assign (target source : Expr)
  | loop (test : Expr) (body : List Stmt)
  | funDec (signature : Signature) (body : List Stmt)
  | result (expression : Option Expr)
  /-- A call whose result is dropped. -/
  | call (name : String) (args : List Expr) (ty : Ty)

structure Program where
  statements : List Stmt

end Scriptlet
