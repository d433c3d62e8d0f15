import Scriptlet.Diagnostic.Basic
import Scriptlet.Line
import Scriptlet.Text.Blank

/-!
Excerpts: a diagnostic together with the line it is about, and an arrow under the column.
-/

namespace Scriptlet

/-- The text, moved right by copies of `fill` to the given width. -/
def padLeft (width : Nat) (fill : Char) (text : String) : String :=
  String.ofList (List.replicate (width - text.length) fill) ++ text

namespace Diagnostic

/-- Name and message, and the tip if there is one. -/
def heading (d : Diagnostic) : List String :=
  ("Error: " ++ d.cause.name ++ " (" ++ d.cause.message ++ ")") ::
    (d.cause.tip?.map fun tip => "Tip: " ++ tip).toList

/-- The place, then the line between bars. The spaces that open the line are left out, and the arrow
that points to the column is shorter by as many. -/
def excerpt (d : Diagnostic) (line : Line) : List String :=
  let number := toString line.number
  let bar := padLeft (number.length + 2) ' ' "|"
  let opening := (line.text.takeWhile (· = ' ')).length
  ["-> " ++ d.position.file ++ ":" ++ number ++ ":" ++ toString (line.column + 1),
    bar,
    number ++ " | " ++ String.ofList (Text.trimEnd (line.text.drop opening)),
    bar ++ " " ++ padLeft (line.column - opening + 1) '-' "^"]

/-- The diagnostic as it is shown, with its line of the source. -/
def render (d : Diagnostic) (source : String) : String :=
  "\n".intercalate
    (d.heading ++ d.excerpt (.holding source.toList d.position.offset.toNat))

end Diagnostic

end Scriptlet
