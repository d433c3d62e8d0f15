import Scriptlet.Int128
import Scriptlet.Ty

/-! Literal values. -/

namespace Scriptlet

inductive Literal where
  | number (value : Float)
  /-- An integer of its own kind, written with the mark `n`. -/
  | bigInt (value : Int128)
  | str (value : String)
  | bool (value : Bool)
  | null
  | undefined

namespace Literal

def ty : Literal → Ty
  | number _ | bigInt _ => .num
  | str _ => .str
  | bool _ => .bool
  | null | undefined => .any

/-- Zero of either kind of number. -/
def isZero : Literal → Bool
  | number value => value == 0
  | bigInt value => value.val == 0
  | _ => false

/-- Numbers are the same if their bits are, so that zero has two forms; what is not a number is
the same as itself. -/
def beq : Literal → Literal → Bool
  | number a, number b => a.toBits == b.toBits || (a.isNaN && b.isNaN)
  | bigInt a, bigInt b => a == b
  | str a, str b => a == b
  | bool a, bool b => a == b
  | null, null | undefined, undefined => true
  | _, _ => false

instance : BEq Literal := ⟨beq⟩

end Literal

end Scriptlet
