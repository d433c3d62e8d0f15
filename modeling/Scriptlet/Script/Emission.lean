import Scriptlet.Program.Basic
import Scriptlet.Script.Literal
import Scriptlet.Script.Renaming

/-!
Scripts: typed programs written as JavaScript, a statement to a line and the bodies of functions and
loops between lines of their own.
-/

namespace Scriptlet

namespace Expr

/-- How a negation is written: apart from another sign, and around an operation. -/
def negation (operand : Expr) (text : String) : String :=
  match operand with
  | unary .. => "- " ++ text
  | binary .. => "-(" ++ text ++ ")"
  | _ => "-" ++ text

/-- A call with its arguments written. -/
def callScript (name : String) (args : List String) : String :=
  name ++ "(" ++ ", ".intercalate args ++ ")"

mutual

/-- The expression as a script. Operations are written without parentheses. -/
def script (r : Renaming) : Expr → String
  | literal value => value.script
  | var v => r.resolve v.name
  | binary op left right _ => left.script r ++ " " ++ op.symbol ++ " " ++ right.script r
  | unary .negate operand _ => negation operand (operand.script r)
  | unary .not operand _ => "!" ++ operand.script r
  | array elements _ => "[" ++ ", ".intercalate (scripts r elements) ++ "]"
  | subscript base index _ => base.script r ++ "[" ++ index.script r ++ "]"
  | call name args _ => callScript name (scripts r args)

def scripts (r : Renaming) : List Expr → List String
  | [] => []
  | e :: es => e.script r :: scripts r es

end

end Expr

/-- Lines of a script, and the names as they stand after them. -/
structure Emitted where
  lines : List String
  names : Renaming

/-- A line, two blanks further right for each level. -/
def indented (depth : Nat) (line : String) : String :=
  String.ofList (List.replicate (2 * depth) ' ') ++ line

namespace Stmt

mutual

/-- The lines of a statement. A declaration counts already in its own initializer. -/
def emit (depth : Nat) (r : Renaming) : Stmt → Emitted
  | varDec v initializer =>
    let (name, r) := r.declare v.name
    ⟨[indented depth ("let " ++ name ++ " = " ++ initializer.script r ++ ";")], r⟩
  | assign target source =>
    ⟨[indented depth (target.script r ++ " = " ++ source.script r ++ ";")], r⟩
  | print argument => ⟨[indented depth ("console.log(" ++ argument.script r ++ ");")], r⟩
  | result expression =>
    let value := match expression with
      | none => ""
      | some e => e.script r
    ⟨[indented depth ("return " ++ value ++ ";")], r⟩
  | call name args _ =>
    ⟨[indented depth (Expr.callScript name (Expr.scripts r args) ++ ";")], r⟩
  | funDec signature body =>
    let params := ", ".intercalate (signature.params.map Variable.name)
    let inner := emitAll (depth + 1) r body
    ⟨indented depth ("function " ++ signature.name ++ "(" ++ params ++ ") \x7b") ::
      inner.lines ++ [indented depth "\x7d"], inner.names⟩
  | loop test body =>
    let inner := emitAll (depth + 1) r body
    ⟨indented depth ("while (" ++ test.script r ++ ") \x7b") ::
      inner.lines ++ [indented depth "\x7d"], inner.names⟩

def emitAll (depth : Nat) (r : Renaming) : List Stmt → Emitted
  | [] => ⟨[], r⟩
  | s :: ss =>
    let first := s.emit depth r
    let rest := emitAll depth first.names ss
    ⟨first.lines ++ rest.lines, rest.names⟩

end

end Stmt

/-- The program as a script. -/
def Program.script (p : Program) : String :=
  "\n".intercalate (Stmt.emitAll 0 .empty p.statements).lines

/-- A script in the making: its lines so far, the names, and the depth of the next line. -/
structure Draft where
  lines : List String
  names : Renaming
  depth : Nat

namespace Draft

def empty : Draft := ⟨[], .empty, 0⟩

/-- Declares a name, and gives the one that stands for it. -/
def declare (d : Draft) (name : String) : String × Draft :=
  let (unique, r) := d.names.declare name
  (unique, { d with names := r })

def line (d : Draft) (text : String) : Draft :=
  { d with lines := d.lines ++ [indented d.depth text] }

/-- Adds statements. -/
def body (d : Draft) (ss : List Stmt) : Draft :=
  let e := Stmt.emitAll d.depth d.names ss
  { d with lines := d.lines ++ e.lines, names := e.names }

/-- Runs `f` one level deeper. -/
def deeper {α : Type} (d : Draft) (f : Draft → α × Draft) : α × Draft :=
  let (a, d') := f { d with depth := d.depth + 1 }
  (a, { d' with depth := d.depth })

def finish (d : Draft) : String := "\n".intercalate d.lines

end Draft

end Scriptlet
