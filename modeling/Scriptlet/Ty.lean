import Scriptlet.Outline

/-! Types: the scalar types, by name, and arrays of any type. -/

namespace Scriptlet

inductive Scalar where
  | num
  | str
  | bool
  | void
  | any
deriving DecidableEq, Repr

namespace Scalar

def name : Scalar → String
  | num => "num"
  | str => "str"
  | bool => "bool"
  | void => "void"
  | any => "any"

def ofName? (name : String) : Option Scalar :=
  match name with
  | "num" => some num
  | "str" => some str
  | "bool" => some bool
  | "void" => some void
  | "any" => some any
  | _ => none

def outline : Scalar → Outline
  | num => .atom "Num"
  | str => .atom "Str"
  | bool => .atom "Bool"
  | void => .atom "Void"
  | any => .atom "Any"

theorem ofName?_name (s : Scalar) : ofName? s.name = some s := by cases s <;> rfl

end Scalar

inductive Ty where
  | scalar (s : Scalar)
  | array (element : Ty)
deriving DecidableEq, Repr

namespace Ty

@[match_pattern] abbrev num : Ty := scalar .num

@[match_pattern] abbrev str : Ty := scalar .str

@[match_pattern] abbrev bool : Ty := scalar .bool

@[match_pattern] abbrev void : Ty := scalar .void

@[match_pattern] abbrev any : Ty := scalar .any

/-- The name of the scalar, with a pair of brackets for each level of array. -/
def name : Ty → String
  | scalar s => s.name
  | array element => element.name ++ "[]"

def element? : Ty → Option Ty
  | scalar _ => none
  | array element => some element

def outline : Ty → Outline
  | scalar s => .tuple "Basic" [s.outline]
  | array element => .tuple "Array" [element.outline]

end Ty

end Scriptlet
