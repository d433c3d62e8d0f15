/-!
Outlines: values shown by their structure, either on one line or with one part a line.
-/

namespace Scriptlet

inductive Outline where
  | atom (text : String)
  /-- A name and its labelled parts. -/
  | record (name : String) (fields : List (String × Outline))
  /-- A name and its parts by place. -/
  | tuple (name : String) (parts : List Outline)
  | list (items : List Outline)

namespace Outline

/-- Several parts on one line. -/
def joinFlat (parts : List String) : String := ", ".intercalate parts

/-- Four blanks for each level. -/
def indent (depth : Nat) : String := String.ofList (List.replicate (4 * depth) ' ')

/-- Parts between brackets, each on a line of its own and ended by a comma. -/
def block (depth : Nat) (opening closing : String) (parts : List String) : String :=
  opening ++ "\n" ++ String.join (parts.map fun part => indent (depth + 1) ++ part ++ ",\n") ++
    indent depth ++ closing

mutual

/-- The outline on one line. -/
def flat : Outline → String
  | atom text => text
  | record name fields => name ++ " \x7b " ++ joinFlat (flatFields fields) ++ " \x7d"
  | tuple name parts => name ++ "(" ++ joinFlat (flatAll parts) ++ ")"
  | list items => "[" ++ joinFlat (flatAll items) ++ "]"

def flatAll : List Outline → List String
  | [] => []
  | part :: rest => flat part :: flatAll rest

def flatFields : List (String × Outline) → List String
  | [] => []
  | (label, part) :: rest => (label ++ ": " ++ flat part) :: flatFields rest

end

mutual

/-- The outline over several lines, where what encloses it is indented by `depth` levels. -/
def tall (depth : Nat) : Outline → String
  | atom text => text
  | record name fields => block depth (name ++ " \x7b") "\x7d" (tallFields (depth + 1) fields)
  | tuple name parts => block depth (name ++ "(") ")" (tallAll (depth + 1) parts)
  | list [] => "[]"
  | list items => block depth "[" "]" (tallAll (depth + 1) items)

def tallAll (depth : Nat) : List Outline → List String
  | [] => []
  | part :: rest => tall depth part :: tallAll depth rest

def tallFields (depth : Nat) : List (String × Outline) → List String
  | [] => []
  | (label, part) :: rest => (label ++ ": " ++ tall depth part) :: tallFields depth rest

end

end Outline

end Scriptlet
