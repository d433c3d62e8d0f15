import Scriptlet.Diagnostic.Basic
import Scriptlet.Program.Basic
import Scriptlet.SyntaxTree.Basic

/-!
What is known while a program is typed: the variables of the scopes that are open, all functions
declared so far, and the types that the functions around the present place return.
-/

namespace Scriptlet

/-- The variables of one scope, the last one first. -/
structure Scope where
  bindings : List Variable
deriving DecidableEq, Repr

namespace Scope

def empty : Scope := ⟨[]⟩

def find? (s : Scope) (name : String) : Option Variable :=
  s.bindings.find? (·.name = name)

/-- Adds a variable. A scope holds a name once. -/
def declare (s : Scope) (v : Variable) (position : Position) : Except Diagnostic Scope :=
  match s.find? v.name with
  | some _ => .error ⟨.duplicateDeclaration v.name, position⟩
  | none => .ok ⟨v :: s.bindings⟩

end Scope

structure Context where
  /-- The open scopes, the innermost first. -/
  scopes : List Scope
  functions : List Signature
  /-- The return types of the functions around the present place, the innermost first. -/
  returnTypes : List Ty
deriving DecidableEq, Repr

namespace Context

/-- One scope, with nothing in it. -/
def empty : Context := ⟨[.empty], [], []⟩

/-- The variable that a name stands for: the one of the innermost scope that has it. -/
def lookup (ctx : Context) (name : String) (position : Position) : Except Diagnostic Variable :=
  match ctx.scopes.findSome? (·.find? name) with
  | some v => .ok v
  | none => .error ⟨.undeclaredName name, position⟩

def function? (ctx : Context) (name : String) : Option Signature :=
  ctx.functions.find? (·.name = name)

end Context

/-- Typing changes what is known, also where it fails. -/
abbrev CheckM := EStateM Diagnostic Context

namespace CheckM

/-- A result that does not depend on more than the context. -/
def reading {α : Type} (f : Context → Except Diagnostic α) : CheckM α := fun ctx =>
  match f ctx with
  | .ok a => .ok a ctx
  | .error d => .error d ctx

/-- Adds a variable to the innermost scope. -/
def declare (v : Variable) (position : Position) : CheckM Unit := fun ctx =>
  match ctx.scopes with
  | [] => .error ⟨.malformedTree Rule.program.name, position⟩ ctx
  | s :: outer =>
    match s.declare v position with
    | .ok s => .ok () { ctx with scopes := s :: outer }
    | .error d => .error d ctx

def declareAll : List (Variable × Position) → CheckM Unit
  | [] => pure ()
  | (v, position) :: rest => do
    declare v position
    declareAll rest

def addFunction (f : Signature) : CheckM Unit :=
  modify fun ctx => { ctx with functions := f :: ctx.functions }

/-- Runs `m` and then changes the context, whether `m` fails or not. -/
def andThen {α : Type} (m : CheckM α) (f : Context → Context) : CheckM α := fun ctx =>
  match m ctx with
  | .ok a ctx => .ok a (f ctx)
  | .error d ctx => .error d (f ctx)

/-- Runs `m` in a scope of its own. -/
def inScope {α : Type} (m : CheckM α) : CheckM α := do
  modify fun ctx => { ctx with scopes := .empty :: ctx.scopes }
  m.andThen fun ctx => { ctx with scopes := ctx.scopes.tail }

/-- Runs `m` inside a function that returns the type. -/
def inFunction {α : Type} (returnType : Ty) (m : CheckM α) : CheckM α := do
  modify fun ctx => { ctx with returnTypes := returnType :: ctx.returnTypes }
  m.andThen fun ctx => { ctx with returnTypes := ctx.returnTypes.tail }

end CheckM

end Scriptlet
