import Scriptlet.SyntaxTree.Construct

/-!
Parsing: from tokens to a syntax tree. Goals may be nested to a depth that the number of tokens
bounds: at one token there are no more than seventeen goals that differ, and one that came back at
the same token would come back forever.
-/

namespace Scriptlet

namespace Parser

/-- Reads a goal with others nested in it to the given depth. -/
def run (p : Parser) : Nat → Goal → ParseM Node
  | 0, _ => ParseM.tooDeep
  | n + 1, goal => p.step (p.run n) goal

/-- A depth that suffices for the tokens that are left. -/
def depth (c : Cursor) : Nat := 32 * c.remaining

/-- Reads a goal. -/
def solve (p : Parser) (goal : Goal) : ParseM Node := do p.run (depth (← get)) goal

/-- The whole of the source. -/
def program (p : Parser) : ParseM Node := do
  let c ← get
  let statements ← ParseM.untilEnd (p.run (depth c) .stmt) c.remaining
  p.finish .program ⟨0, c.start.file⟩ statements

end Parser

/-- The tree of a list of tokens of the source. -/
def parse (tokens : List Token) (source : String) : Except Diagnostic Node :=
  let p : Parser := ⟨.standard, source.toList⟩
  match p.program (.ofTokens tokens) with
  | .ok node _ => .ok node
  | .error d _ => .error d

end Scriptlet
