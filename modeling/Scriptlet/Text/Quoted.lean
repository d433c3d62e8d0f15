import Scriptlet.Text.GraphemeExtend
import Scriptlet.Text.Printable

/-!
Quoted text, as messages and outlines show it: between double quotes, with an escape for each
character that would not be seen, or not be seen alone.
-/

namespace Scriptlet.Text

/-- Escapes with a letter of their own; any other hidden character is given by its code point. -/
def escape (c : Char) : List Char :=
  match c with
  | '\x00' => ['\\', '0']
  | '\t' => ['\\', 't']
  | '\r' => ['\\', 'r']
  | '\n' => ['\\', 'n']
  | '"' => ['\\', '"']
  | '\\' => ['\\', '\\']
  | c =>
    if isGraphemeExtend c || !isPrintable c then
      ['\\', 'u', '\x7b'] ++ Nat.toDigits 16 c.toNat ++ ['\x7d']
    else [c]

/-- The text in double quotes, with hidden characters escaped. -/
def quote (s : String) : String :=
  String.ofList ('"' :: s.toList.flatMap escape ++ ['"'])

end Scriptlet.Text
