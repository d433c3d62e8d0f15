import Scriptlet.Decimal.Shortest

/-!
Number texts: the shortest digits of a float, with the point among them or with a power of ten after
them. A `Layout` records which exponents are written in full and how the rest is spelt.
-/

namespace Scriptlet

structure Layout where
  /-- Least exponent of a number that is written in full. -/
  leastPlain : Int
  /-- Greatest exponent of a number that is written in full. -/
  greatestPlain : Int
  /-- What follows a whole number that is written in full. -/
  wholeEnd : List Char
  /-- The sign of a power of ten that is not negative. -/
  powerSign : List Char
  /-- The text of zero, and of zero with a sign. -/
  zero : List Char
  negativeZero : List Char
  nan : List Char
  infinity : List Char

namespace Layout

/-- The digits with the point in its place, and zeros where there are no digits. -/
def plain (l : Layout) (d : Decimal) : List Char :=
  let digits := d.digits
  let point := d.point
  if digits.length ≤ point then
    digits ++ List.replicate (point - digits.length).toNat '0' ++ l.wholeEnd
  else if 0 < point then
    digits.take point.toNat ++ '.' :: digits.drop point.toNat
  else
    '0' :: '.' :: List.replicate (-point).toNat '0' ++ digits

/-- The first digit, the others after a point, and the power of ten. -/
def scientific (l : Layout) (d : Decimal) : List Char :=
  let fraction := match d.digits.drop 1 with
    | [] => []
    | rest => '.' :: rest
  let sign := if 0 ≤ d.exponent then l.powerSign else ['-']
  d.digits.take 1 ++ fraction ++ 'e' :: sign ++ Nat.toDigits 10 d.exponent.natAbs

/-- The text of a positive decimal: the exponent alone decides its form. -/
def positive (l : Layout) (d : Decimal) : List Char :=
  if l.leastPlain ≤ d.exponent ∧ d.exponent ≤ l.greatestPlain then l.plain d else l.scientific d

/-- A minus sign before what is negative. -/
def signed (negative : Bool) (text : List Char) : List Char :=
  if negative then '-' :: text else text

def text (l : Layout) : Reading → List Char
  | .nan => l.nan
  | .infinite negative => signed negative l.infinity
  | .zero negative => if negative then l.negativeZero else l.zero
  | .finite negative b => signed negative (l.positive b.shortest)

/-- The text of a float. -/
def ofFloat (l : Layout) (x : Float) : String :=
  String.ofList (l.text (Reading.ofFloat x))

end Layout

end Scriptlet
