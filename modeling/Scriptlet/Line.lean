import Scriptlet.Text.Bytes

/-!
Lines of a text. A line keeps the line feed that ends it, and `Line.holding` finds the line that
holds a byte.
-/

namespace Scriptlet

/-- A line with its number, counted from one, and a column in it, counted in bytes from zero. -/
structure Line where
  number : Nat
  text : List Char
  column : Nat
deriving DecidableEq, Repr

/-- The lines of a text, each with its line feed. -/
def lines : List Char → List (List Char)
  | [] => []
  | c :: cs =>
    if c = '\n' then [c] :: lines cs
    else match lines cs with
      | [] => [[c]]
      | line :: rest => (c :: line) :: rest

namespace Line

/-- The place after the last character: on `last`, unless that line is complete. -/
def atEnd (number : Nat) (last : List Char) : Line :=
  if last = [] ∨ last.getLast? = some '\n' then ⟨number, [], 0⟩
  else ⟨number - 1, last, Text.byteLength last⟩

/-- Search from line `number` on, with the line before it and the offset within what is left. -/
def search (number : Nat) (last : List Char) : List (List Char) → Nat → Line
  | [], _ => atEnd number last
  | line :: rest, offset =>
    if offset < Text.byteLength line then ⟨number, line, offset⟩
    else search (number + 1) line rest (offset - Text.byteLength line)

/-- The line that holds byte `offset`. Beyond the text it is the place after its last character. -/
def holding (text : List Char) (offset : Nat) : Line :=
  search 1 [] (lines text) offset

end Line

end Scriptlet
