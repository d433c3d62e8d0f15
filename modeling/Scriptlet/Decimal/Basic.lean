/-!
Decimal fractions: a coefficient and a power of ten.
-/

namespace Scriptlet

/-- The number `coefficient * 10 ^ scale`. -/
structure Decimal where
  coefficient : Nat
  scale : Int
deriving DecidableEq, Repr

namespace Decimal

/-- The decimal digits of the coefficient. -/
def digits (d : Decimal) : List Char := Nat.toDigits 10 d.coefficient

/-- Place of the point: how many digits stand before it, negative if zeros have to follow it. -/
def point (d : Decimal) : Int := d.digits.length + d.scale

/-- Exponent of the first digit. -/
def exponent (d : Decimal) : Int := d.point - 1

end Decimal

end Scriptlet
