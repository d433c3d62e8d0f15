/-!
Files by path. A tree of files is given by the paths of its files from its top; the directories are
those that the paths pass through. What lies beyond the top is not known.
-/

namespace Scriptlet

/-- Why a file cannot be read: a reason and number of the system, or what it holds is no text. -/
inductive ReadFault where
  | system (reason : String) (number : Nat)
  | notText
deriving DecidableEq, Repr

namespace ReadFault

def missing : ReadFault := system "No such file or directory" 2

def notDirectory : ReadFault := system "Not a directory" 20

def isDirectory : ReadFault := system "Is a directory" 21

def message : ReadFault → String
  | system reason number => reason ++ " (os error " ++ toString number ++ ")"
  | notText => "stream did not contain valid UTF-8"

end ReadFault

/-- The parts of a path between slashes. -/
def pathParts (path : String) : List String :=
  path.splitOn "/"

structure FileTree where
  /-- The parts of each path, and what the file holds. -/
  files : List (List String × ByteArray)

/-- Where a walk along a path has come to. -/
inductive Place where
  | file (contents : ByteArray)
  | directory (path : List String)
  /-- A directory above the top. -/
  | above

namespace FileTree

/-- What a path from the top leads to. -/
def entry? (t : FileTree) (path : List String) : Option Place :=
  match t.files.find? (·.1 = path) with
  | some (_, contents) => some (.file contents)
  | none =>
    if path = [] ∨ t.files.any fun f => path.isPrefixOf f.1 then some (.directory path) else none

/-- One part further. Only a directory has something beyond it, be it itself. -/
def step (t : FileTree) (place : Place) (part : String) : Except ReadFault Place :=
  match place with
  | .file _ => .error .notDirectory
  | .directory path =>
    if part = "" ∨ part = "." then .ok place
    else if part = ".." then
      if path = [] then .ok .above else .ok (.directory path.dropLast)
    else match t.entry? (path ++ [part]) with
      | some place => .ok place
      | none => .error .missing
  | .above => if part = "" ∨ part = "." ∨ part = ".." then .ok place else .error .missing

/-- What a file holds, by its path. -/
def read (t : FileTree) (path : String) : Except ReadFault ByteArray := do
  if path = "" then throw .missing
  let parts := pathParts path
  let start := if parts.head? = some "" then Place.above else .directory []
  match ← parts.foldlM t.step start with
  | .file contents => return contents
  | .directory _ | .above => throw .isDirectory

end FileTree

end Scriptlet
