import Scriptlet.Artifact
import Scriptlet.Diagnostic.Excerpt
import Scriptlet.FileTree

/-!
The command line: a file to compile and, perhaps, the last stage to run. The artifact goes to the
output; what goes wrong is told on the error stream.
-/

namespace Scriptlet

/-- What a run of the program leaves behind. -/
structure Outcome where
  exitCode : UInt32
  output : String
  errors : String
deriving DecidableEq, Repr

def Outcome.failed (message : String) : Outcome := ⟨1, "", message ++ "\n"⟩

structure Request where
  path : String
  stage : Stage
deriving DecidableEq, Repr

namespace Request

def usage : String := "usage: boum <file> [parsed|analyzed|optimized|js]"

/-- What the arguments ask for, or what is wrong with them. -/
def ofArgs (args : List String) : Except String Request :=
  match args with
  | [path] => .ok ⟨path, .js⟩
  | [path, stage] =>
    match Stage.ofName stage with
    | .ok stage => .ok ⟨path, stage⟩
    | .error d => .error d.cause.message
  | _ => .error usage

/-- The last part of the path that is a name. A path that ends in none is its own name. -/
def fileName (r : Request) : String :=
  match ((pathParts r.path).filter fun part => part ≠ "" ∧ part ≠ ".").getLast? with
  | none | some ".." => r.path
  | some name => name

/-- The outcome, given what the file holds. -/
def answer (r : Request) (contents : Except ReadFault ByteArray) : Outcome :=
  let source := do
    match String.fromUTF8? (← contents) with
    | some source => pure source
    | none => throw ReadFault.notText
  match source with
  | .error fault =>
    .failed ("Error: failed to read `" ++ r.path ++ "`\n\nCaused by:\n    " ++ fault.message)
  | .ok source =>
    match compile source (some r.fileName) r.stage with
    | .ok artifact => ⟨0, artifact ++ "\n", ""⟩
    | .error d => .failed (d.render source)

end Request

/-- The outcome for the arguments, where `read` reads files. -/
def runWith {m : Type → Type} [Monad m] (read : String → m (Except ReadFault ByteArray))
    (args : List String) : m Outcome := do
  match Request.ofArgs args with
  | .error message => return .failed ("Error: " ++ message)
  | .ok r => return r.answer (← read r.path)

end Scriptlet
