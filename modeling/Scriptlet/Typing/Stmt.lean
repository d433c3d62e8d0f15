import Scriptlet.Typing.Expr

/-!
Typed statements of syntax trees. A declaration adds to the innermost scope, a function is known
from its head on, and a body is typed in a scope of its own.
-/

namespace Scriptlet

namespace Stmt

mutual

/-- Whether the statement returns, itself or in a loop. A function within answers for itself. -/
def returns : Stmt → Bool
  | result _ => true
  | loop _ body => anyReturns body
  | _ => false

def anyReturns : List Stmt → Bool
  | [] => false
  | s :: ss => returns s || anyReturns ss

end

end Stmt

namespace Node

/-- The parameter that a node describes, and where its name stands. -/
def toParam (n : Node) : Except Diagnostic (Variable × Position) :=
  if n.rule = .param then
    match n.children with
    | [] => .error n.malformed
    | name :: rest => do
      let text ← name.identifier
      match rest with
      | [] => throw n.malformed
      | type :: _ => return (⟨text, ← type.toType⟩, name.start)
  else .error n.malformed

def toParams (n : Node) : Except Diagnostic (List (Variable × Position)) :=
  if n.rule = .params then n.children.mapM toParam else .error n.malformed

end Node

/-- What a `return` at the position may give back, in a function that returns `expected`. -/
def expectResult (expected : Ty) (value : Option Expr) (position : Position) :
    Except Diagnostic Unit :=
  match value with
  | none =>
    if expected = .void then .ok ()
    else .error (.mismatch .returned expected .void position)
  | some e =>
    if expected = .void then .error ⟨.voidReturnsValue, position⟩
    else expectType .returned expected e.ty position

/-- The name of a function that is being declared, for the first time. -/
def Context.newFunction (ctx : Context) (name : Node) : Except Diagnostic String := do
  let text ← name.identifier
  match ctx.function? text with
  | some _ => throw ⟨.duplicateFunction text, name.start⟩
  | none => return text

open CheckM

/-- The target of an assignment: a variable or an element. -/
def checkTarget (n : Node) : CheckM Expr :=
  if n.rule = .id ∨ n.rule = .subscript then checkExpr n else throw n.malformed

def checkAssign (span : Span) (children : List Node) : CheckM Stmt :=
  match children with
  | [] => throw (.malformed .assignStmt span)
  | targetNode :: rest => do
    let target ← checkTarget targetNode
    match rest with
    | [] => throw (.malformed .assignStmt span)
    | sourceNode :: _ =>
      let source ← checkExpr sourceNode
      reading fun _ => expectType .assignment target.ty source.ty sourceNode.start
      return .assign target source

/-- A variable is known only after its initializer. -/
def checkVarDec (span : Span) (children : List Node) : CheckM Stmt :=
  match children with
  | [] => throw (.malformed .varDec span)
  | name :: rest => do
    let text ← reading fun _ => name.identifier
    match rest with
    | [] => throw (.malformed .varDec span)
    | initializer :: _ =>
      let e ← checkExpr initializer
      declare ⟨text, e.ty⟩ name.start
      return .varDec ⟨text, e.ty⟩ e

/-- The test of a loop. -/
def checkCondition (test : Node) : CheckM Expr := do
  let e ← checkExpr test
  reading fun _ => expectType .condition .bool e.ty test.start
  return e

def checkValue : List Node → CheckM (Option Expr)
  | [] => pure none
  | n :: _ => return some (← checkExpr n)

/-- A `return`, which must stand in a function. -/
def checkResult (span : Span) (children : List Node) : CheckM Stmt := do
  match (← get).returnTypes with
  | [] => throw ⟨.returnOutsideFunction, span.start⟩
  | expected :: _ => do
    let value ← checkValue children
    reading fun _ => expectResult expected value span.start
    return .result value

/-- A function, given its head and how its body is typed. It is known in its own body, and if it has
something to return its body must contain a `return`. -/
def checkFunction (name : String) (position : Position) (params : List (Variable × Position))
    (returnType : Ty) (body : CheckM (List Stmt)) : CheckM Stmt := do
  let f : Signature := ⟨name, params.map (·.1), returnType⟩
  addFunction f
  let body ← inScope do
    declareAll params
    inFunction returnType body
  if returnType = .void ∨ Stmt.anyReturns body then
    return .funDec f body
  else
    throw ⟨.missingRequiredReturn name returnType.name, position⟩

mutual

/-- The typed statement of a node. -/
def checkStmt : Node → CheckM Stmt
  | ⟨.printStmt, _, span, children⟩ =>
    match children with
    | [] => throw (.malformed .printStmt span)
    | argument :: _ => return .print (← checkExpr argument)
  | ⟨.varDec, _, span, children⟩ => checkVarDec span children
  | ⟨.assignStmt, _, span, children⟩ => checkAssign span children
  | ⟨.whileStmt, _, span, children⟩ =>
    match children with
    | [] => throw (.malformed .whileStmt span)
    | test :: rest => do
      let test ← checkCondition test
      match rest with
      | [] => throw (.malformed .whileStmt span)
      | body :: _ => return .loop test (← inScope (checkBlock body))
  | ⟨.funDec, _, span, children⟩ =>
    match children with
    | [] => throw (.malformed .funDec span)
    | name :: rest => do
      let text ← reading (·.newFunction name)
      match rest with
      | [] => throw (.malformed .funDec span)
      | params :: rest => do
        let params ← reading fun _ => params.toParams
        match rest with
        | [body] => checkFunction text name.start params .void (checkBlock body)
        | [type, body] => do
          let type ← reading fun _ => type.toType
          checkFunction text name.start params type (checkBlock body)
        | _ => throw (.malformed .funDec span)
  | ⟨.returnStmt, _, span, children⟩ => checkResult span children
  | ⟨.callStmt, _, span, children⟩ =>
    match children with
    | [] => throw (.malformed .callStmt span)
    | ⟨.call, _, span, parts⟩ :: _ => do
      let (f, args) ← checkCall span parts
      return .call f.name args f.returnType
    | n :: _ => throw n.malformed
  | ⟨rule, _, span, _⟩ => throw (.malformed rule span)

def checkBlock : Node → CheckM (List Stmt)
  | ⟨.block, _, _, children⟩ => checkStmts children
  | ⟨rule, _, span, _⟩ => throw (.malformed rule span)

def checkStmts : List Node → CheckM (List Stmt)
  | [] => pure []
  | n :: ns => return (← checkStmt n) :: (← checkStmts ns)

end

def checkProgram (n : Node) : CheckM Program :=
  if n.rule = .program then return ⟨← checkStmts n.children⟩ else throw n.malformed

/-- The typed program of a tree. -/
def analyze (n : Node) : Except Diagnostic Program :=
  match checkProgram n .empty with
  | .ok p _ => .ok p
  | .error d _ => .error d

end Scriptlet
