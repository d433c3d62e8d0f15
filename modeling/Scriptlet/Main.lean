import Scriptlet.CommandLine

/-! The program itself: reads the file that its arguments name. -/

namespace Scriptlet

/-- What the file at a path holds, or why it cannot be read. -/
def readFromDisk (path : String) : IO (Except ReadFault ByteArray) := do
  try
    return .ok (← IO.FS.readBinFile path)
  catch
    | .noFileOrDirectory .. => return .error .missing
    | .inappropriateType _ number reason | .permissionDenied _ number reason =>
      return .error (.system reason number.toNat)
    | e => return .error (.system (toString e) 5)

end Scriptlet

def main (args : List String) : IO UInt32 := do
  let outcome ← Scriptlet.runWith Scriptlet.readFromDisk args
  IO.print outcome.output
  IO.eprint outcome.errors
  return outcome.exitCode
