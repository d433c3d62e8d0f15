import Scriptlet.Decimal.Layout
import Scriptlet.Program.Literal

/-!
Literals in JavaScript. A number is written as JavaScript itself writes it, a string in double
quotes with the escapes of JSON.
-/

namespace Scriptlet

/-- Numbers in scripts: in full from a millionth to below ten to the twenty-first, without a point
where none is needed. Zero has no sign. -/
def Layout.script : Layout where
  leastPlain := -6
  greatestPlain := 20
  wholeEnd := []
  powerSign := ['+']
  zero := ['0']
  negativeZero := ['0']
  nan := "NaN".toList
  infinity := "Infinity".toList

/-- A character of a string: quotes, backslashes and controls are escaped. -/
def scriptChar (c : Char) : List Char :=
  match c with
  | '"' => ['\\', '"']
  | '\\' => ['\\', '\\']
  | '\x08' => ['\\', 'b']
  | '\t' => ['\\', 't']
  | '\n' => ['\\', 'n']
  | '\x0c' => ['\\', 'f']
  | '\r' => ['\\', 'r']
  | c =>
    if c.toNat < 0x20 then
      ['\\', 'u', '0', '0', Nat.digitChar (c.toNat / 16), Nat.digitChar (c.toNat % 16)]
    else [c]

def scriptString (s : String) : String :=
  String.ofList ('"' :: s.toList.flatMap scriptChar ++ ['"'])

/-- The number as a script writes it. -/
def scriptNumber (x : Float) : String := Layout.script.ofFloat x

def Literal.script : Literal → String
  | number value => scriptNumber value
  | bigInt value => toString value ++ "n"
  | str value => scriptString value
  | bool value => toString value
  | null => "null"
  | undefined => "undefined"

end Scriptlet
