import Scriptlet.Decimal.Basic

/-!
The shortest decimal of a binary fraction: among the decimals that lie nearer to it than to any
other float, the one with the fewest digits; of several such, the nearest. All arithmetic is exact.
-/

namespace Scriptlet

/-- The number `mantissa * 2 ^ exponent`. Its lower neighbour may be half as far as its upper
one. -/
structure Binary where
  mantissa : Nat
  exponent : Int
  narrowBelow : Bool
deriving DecidableEq, Repr

/-- What a float stands for. The flag is the sign, set for negative ones. -/
inductive Reading where
  | nan
  | infinite (negative : Bool)
  | zero (negative : Bool)
  | finite (negative : Bool) (magnitude : Binary)
deriving DecidableEq, Repr

/-- The parts of a float's 64 bits: sign, 11 bits of exponent, 52 bits of fraction. -/
def Reading.ofFloat (x : Float) : Reading :=
  let bits := x.toBits.toNat
  let negative := bits / Nat.pow 2 63 == 1
  let exponent : Nat := bits / Nat.pow 2 52 % Nat.pow 2 11
  let fraction : Nat := bits % Nat.pow 2 52
  if exponent = 2047 then
    if fraction = 0 then .infinite negative else .nan
  else if exponent = 0 then
    if fraction = 0 then .zero negative else .finite negative ⟨fraction, -1074, false⟩
  else
    .finite negative
      ⟨Nat.pow 2 52 + fraction, (exponent : Int) - 1075, fraction == 0 && exponent != 1⟩

/-- A positive value and the ends of the interval of numbers that round to it, as multiples of one
unit `1 / den`. The ends belong to the interval if it is closed. -/
structure Rounding where
  low : Nat
  value : Nat
  high : Nat
  den : Nat
  closed : Bool
deriving DecidableEq, Repr

namespace Rounding

/-- Ties round to the even mantissa, so that one keeps its ends. -/
def ofBinary (b : Binary) : Rounding :=
  let unit := Nat.pow 2 (b.exponent - 2).toNat
  { low := (4 * b.mantissa - if b.narrowBelow then 1 else 2) * unit
    value := 4 * b.mantissa * unit
    high := (4 * b.mantissa + 2) * unit
    den := Nat.pow 2 (2 - b.exponent).toNat
    closed := b.mantissa % 2 == 0 }

/-- The same interval, measured in multiples of `10 ^ scale`. -/
def measuredIn (r : Rounding) (scale : Int) : Rounding :=
  let unit := Nat.pow 10 (-scale).toNat
  { low := r.low * unit
    value := r.value * unit
    high := r.high * unit
    den := r.den * Nat.pow 10 scale.toNat
    closed := r.closed }

/-- Whether the whole number `n` lies in the interval. -/
def contains (r : Rounding) (n : Nat) : Bool :=
  if r.closed then r.low ≤ n * r.den && n * r.den ≤ r.high
  else r.low < n * r.den && n * r.den < r.high

/-- The whole number of the interval nearest to the value, of its two neighbours. A tie goes up. -/
def whole? (r : Rounding) : Option Nat :=
  let below := r.value / r.den
  match r.contains below, r.contains (below + 1) with
  | true, true => some (if 2 * r.value < (2 * below + 1) * r.den then below else below + 1)
  | true, false => some below
  | false, true => some (below + 1)
  | false, false => none

/-- Number of decimal digits. -/
def digitCount (n : Nat) : Nat := (Nat.toDigits 10 n).length

/-- The exponent of the value's first decimal digit. -/
def exponent (r : Rounding) : Int :=
  if r.den ≤ r.value then digitCount (r.value / r.den) - 1
  else -digitCount ((r.den + r.value - 1) / r.value - 1)

/-- The decimal of the interval with `count` digits nearest to the value, whose first digit has the
given exponent. -/
def decimal? (r : Rounding) (exponent : Int) (count : Nat) : Option Decimal :=
  let scale := exponent + 1 - count
  (r.measuredIn scale).whole?.map fun n =>
    if n = Nat.pow 10 count then ⟨1, scale + count⟩ else ⟨n, scale⟩

end Rounding

/-- Seventeen digits always tell a float from its neighbours, so the exact value at the end is
never needed. -/
def Binary.shortest (b : Binary) : Decimal :=
  let r := Rounding.ofBinary b
  let exponent := r.exponent
  ((List.range 17).findSome? fun k => r.decimal? exponent (k + 1)).getD
    (if 0 ≤ b.exponent then ⟨b.mantissa * Nat.pow 2 b.exponent.toNat, 0⟩
      else ⟨b.mantissa * Nat.pow 5 (-b.exponent).toNat, b.exponent⟩)

end Scriptlet
