import Scriptlet.Int128

/-!
Numerals: texts that are read as numbers. An integer is a run of digits with an optional sign; a
float may have a point, a power of ten, or be one of the words for infinity and not-a-number.
-/

namespace Scriptlet.Numeral

/-- The value of a run of decimal digits, which may be empty. -/
def natOfDigits (cs : List Char) : Nat :=
  cs.foldl (fun n c => 10 * n + (c.toNat - '0'.toNat)) 0

/-- A sign, set for minus, and what follows it. -/
def splitSign : List Char → Bool × List Char
  | '-' :: cs => (true, cs)
  | '+' :: cs => (false, cs)
  | cs => (false, cs)

/-- One digit or more. -/
def nat? (cs : List Char) : Option Nat :=
  if cs ≠ [] ∧ cs.all Char.isDigit then some (natOfDigits cs) else none

/-- A sign, perhaps, and digits. -/
def int? (cs : List Char) : Option Int :=
  let (negative, digits) := splitSign cs
  (nat? digits).map fun n => if negative then -(n : Int) else n

def int128? (cs : List Char) : Option Int128 :=
  (int? cs).bind Int128.ofInt?

/-- Digits around an optional point: all of them, and how many stand behind it. At least one. -/
def fraction? (cs : List Char) : Option (List Char × Nat) :=
  let whole := cs.takeWhile Char.isDigit
  match cs.dropWhile Char.isDigit with
  | [] => if whole = [] then none else some (whole, 0)
  | c :: rest =>
    if c = '.' ∧ rest.all Char.isDigit ∧ (whole ≠ [] ∨ rest ≠ []) then
      some (whole ++ rest, rest.length)
    else none

/-- The nearest float to `digits * 10 ^ power`. -/
def scaled (digits : List Char) (power : Int) : Float :=
  Float.ofScientific (natOfDigits digits) (power < 0) power.natAbs

/-- A fraction without sign, with an optional power of ten after it. -/
def magnitude? (cs : List Char) : Option Float :=
  let isMark (c : Char) := c = 'e' ∨ c = 'E'
  let before := cs.takeWhile fun c => ¬isMark c
  match cs.dropWhile fun c => ¬isMark c with
  | [] => (fraction? before).map fun (digits, places) => scaled digits (-(places : Int))
  | _ :: power => do
    let (digits, places) ← fraction? before
    let power ← int? power
    return scaled digits (power - places)

/-- A float: a sign, perhaps, before a magnitude or a word, whose case does not matter. -/
def float? (cs : List Char) : Option Float :=
  let (negative, cs) := splitSign cs
  let word := String.ofList (cs.map Char.toLower)
  let value :=
    if word = "inf" ∨ word = "infinity" then some (1 / 0)
    else if word = "nan" then some (0 / 0)
    else magnitude? cs
  value.map fun x => if negative then -x else x

end Scriptlet.Numeral
