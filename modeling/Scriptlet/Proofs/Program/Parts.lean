import Scriptlet.Program.Basic

/-!
The parts of expressions and statements: what an expression mentions, what stands in a statement
itself and what in the block inside, and induction over both.
-/

namespace Scriptlet

/-- What an expression mentions: a variable, or a function with the number of its arguments and the
type that it returns. -/
inductive Mention where
  | var (v : Variable)
  | call (name : String) (count : Nat) (ty : Ty)

namespace Mention

def var? : Mention → Option Variable
  | var v => some v
  | call .. => none

def callee? : Mention → Option String
  | var _ => none
  | call name _ _ => some name

end Mention

namespace Expr

/-- Induction with the elements of lists as parts. -/
theorem induction {motive : Expr → Prop} (literal : ∀ value, motive (.literal value))
    (var : ∀ v, motive (.var v))
    (binary : ∀ op left right t, motive left → motive right → motive (.binary op left right t))
    (unary : ∀ op operand t, motive operand → motive (.unary op operand t))
    (array : ∀ elements t, (∀ e ∈ elements, motive e) → motive (.array elements t))
    (subscript : ∀ base index t, motive base → motive index → motive (.subscript base index t))
    (call : ∀ name args t, (∀ e ∈ args, motive e) → motive (.call name args t)) (e : Expr) :
    motive e := by
  refine @Expr.rec motive (fun es => ∀ e ∈ es, motive e) literal var binary unary array subscript
    call ?_ ?_ e
  · intro e he
    cases he
  · intro e es he hes e' he'
    rcases List.mem_cons.1 he' with rfl | he'
    · exact he
    · exact hes e' he'

mutual

/-- What the expression mentions, from left to right. -/
def mentions : Expr → List Mention
  | literal _ => []
  | var v => [.var v]
  | binary _ left right _ => left.mentions ++ right.mentions
  | unary _ operand _ => operand.mentions
  | array elements _ => mentionsAll elements
  | subscript base index _ => base.mentions ++ index.mentions
  | call name args ty => .call name args.length ty :: mentionsAll args

def mentionsAll : List Expr → List Mention
  | [] => []
  | e :: es => e.mentions ++ mentionsAll es

end

def vars (e : Expr) : List Variable := e.mentions.filterMap Mention.var?

/-- The names of the functions that are called. -/
def callees (e : Expr) : List String := e.mentions.filterMap Mention.callee?

theorem mem_mentionsAll {m : Mention} {es : List Expr} :
    m ∈ mentionsAll es ↔ ∃ e ∈ es, m ∈ e.mentions := by
  induction es with
  | nil => simp [mentionsAll]
  | cons e es ih => simp [mentionsAll, ih]

mutual

/-- The expression and all the expressions in it. -/
def subexprs : Expr → List Expr
  | literal value => [literal value]
  | var v => [var v]
  | binary op left right ty => binary op left right ty :: (left.subexprs ++ right.subexprs)
  | unary op operand ty => unary op operand ty :: operand.subexprs
  | array elements ty => array elements ty :: subexprsAll elements
  | subscript base index ty => subscript base index ty :: (base.subexprs ++ index.subexprs)
  | call name args ty => call name args ty :: subexprsAll args

def subexprsAll : List Expr → List Expr
  | [] => []
  | e :: es => e.subexprs ++ subexprsAll es

end

theorem subexprsAll_eq_flatMap (es : List Expr) : subexprsAll es = es.flatMap subexprs := by
  induction es with
  | nil => rfl
  | cons e es ih => rw [subexprsAll, ih, List.flatMap_cons]

end Expr

namespace Stmt

/-- The expressions of the statement itself. -/
def exprs : Stmt → List Expr
  | print argument => [argument]
  | varDec _ initializer => [initializer]
  | assign target source => [target, source]
  | loop test _ => [test]
  | funDec _ _ => []
  | result expression => expression.toList
  | call name args ty => [.call name args ty]

/-- The statements inside a loop or a function. -/
def contents : Stmt → List Stmt
  | loop _ body => body
  | funDec _ body => body
  | _ => []

/-- The function that a statement declares in the block where it stands. -/
def function? : Stmt → Option Signature
  | funDec f _ => some f
  | _ => none

mutual

/-- The names that a statement declares by `let`, in its parts too. -/
def lets : Stmt → List String
  | varDec v _ => [v.name]
  | loop _ body => letsAll body
  | funDec _ body => letsAll body
  | _ => []

def letsAll : List Stmt → List String
  | [] => []
  | s :: ss => s.lets ++ letsAll ss

end

mutual

/-- All the expressions in a statement and in its parts. -/
def subexprs : Stmt → List Expr
  | loop test body => test.subexprs ++ subexprsAll body
  | funDec _ body => subexprsAll body
  | s => s.exprs.flatMap Expr.subexprs

def subexprsAll : List Stmt → List Expr
  | [] => []
  | s :: ss => s.subexprs ++ subexprsAll ss

end

theorem subexprs_eq (s : Stmt) :
    s.subexprs = s.exprs.flatMap Expr.subexprs ++ subexprsAll s.contents := by
  cases s <;> simp [subexprs, exprs, contents, subexprsAll]

/-- Induction over statements: what holds of a statement if it holds of the block inside. -/
theorem induction {P : Stmt → Prop} {Q : List Stmt → Prop} (step : ∀ s, Q s.contents → P s)
    (nil : Q []) (cons : ∀ s ss, P s → Q ss → Q (s :: ss)) (ss : List Stmt) : Q ss := by
  have hstmt : ∀ s, P s := by
    intro s
    refine Stmt.rec (motive_1 := P) (motive_2 := Q) ?_ ?_ ?_ ?_ ?_ ?_ ?_ nil cons s
    · exact fun e => step (.print e) nil
    · exact fun v e => step (.varDec v e) nil
    · exact fun t e => step (.assign t e) nil
    · exact fun e body hbody => step (.loop e body) hbody
    · exact fun f body hbody => step (.funDec f body) hbody
    · exact fun e => step (.result e) nil
    · exact fun name args ty => step (.call name args ty) nil
  induction ss with
  | nil => exact nil
  | cons s ss ih => exact cons s ss (hstmt s) ih

end Stmt

def Program.subexprs (p : Program) : List Expr := Stmt.subexprsAll p.statements

end Scriptlet
