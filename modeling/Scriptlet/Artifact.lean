import Scriptlet.Folding
import Scriptlet.Program.Equality
import Scriptlet.Program.Outline
import Scriptlet.Script.Emission
import Scriptlet.SyntaxTree.Parse
import Scriptlet.Token.Scan
import Scriptlet.Typing.Stmt

/-! Artifacts: what a source is compiled to, by all stages or by the first ones. -/

namespace Scriptlet

/-- The last stage to run. -/
inductive Stage where
  | parsed
  | analyzed
  | optimized
  | js
deriving DecidableEq, Repr

namespace Stage

def name : Stage → String
  | parsed => "parsed"
  | analyzed => "analyzed"
  | optimized => "optimized"
  | js => "js"

def ofName (name : String) : Except Diagnostic Stage :=
  match name with
  | "parsed" => .ok parsed
  | "analyzed" => .ok analyzed
  | "optimized" => .ok optimized
  | "js" => .ok js
  | _ => .error ⟨.unknownOutputType name, .nowhere⟩

def outline : Stage → Outline
  | parsed => .atom "Parsed"
  | analyzed => .atom "Analyzed"
  | optimized => .atom "Optimized"
  | js => .atom "Js"

end Stage

/-- The typed program of a source. -/
def typed (source : String) (file : Option String) : Except Diagnostic Program := do
  analyze (← parse (← tokenize source file) source)

/-- What a source becomes after the stage: a word that its syntax is right, an outline of the typed
program or of the folded one, or the script. -/
def compile (source : String) (file : Option String) (stage : Stage) : Except Diagnostic String :=
  match stage with
  | .parsed => do
    let _ ← parse (← tokenize source file) source
    return "Syntax is ok"
  | .analyzed => return (← typed source file).outline.tall 0
  | .optimized => return (← typed source file).fold.outline.tall 0
  | .js => return (← typed source file).fold.script

end Scriptlet
