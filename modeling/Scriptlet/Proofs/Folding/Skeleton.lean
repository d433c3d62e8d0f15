import Scriptlet.Folding
import Scriptlet.Proofs.Program.Parts

/-!
What folding leaves as it is: the statements, how they are nested and what they declare, and what
each of their expressions mentions, from left to right. Three rules let an operand go, but by then
it is a literal, and a literal mentions nothing.
-/

namespace Scriptlet

/-! ## Expressions -/

namespace Expr

theorem mentions_simplifyBinary (op : BinaryOp) (left right : Expr) (t : Ty) :
    (simplifyBinary op left right t).mentions = left.mentions ++ right.mentions := by
  unfold simplifyBinary
  split
  · split <;> rfl
  · split <;> rfl
  · rfl

/-- What has a constant value is made of literals. -/
theorem mentions_of_constant? {op : BinaryOp} {left right : Expr} {value : Literal}
    (h : constant? op left right = some value) : left.mentions = [] ∧ right.mentions = [] := by
  unfold constant? at h
  split at h
  · exact ⟨rfl, rfl⟩
  · cases h

theorem mentions_foldBinary (op : BinaryOp) (left right : Expr) (t : Ty) :
    (foldBinary op left right t).mentions = left.mentions ++ right.mentions := by
  unfold foldBinary
  split
  · next value h =>
    obtain ⟨hl, hr⟩ := mentions_of_constant? h
    rw [hl, hr]
    rfl
  · apply mentions_simplifyBinary

theorem mentions_foldUnary (op : UnaryOp) (operand : Expr) (t : Ty) :
    (foldUnary op operand t).mentions = operand.mentions := by
  unfold foldUnary
  split
  · split <;> rfl
  · rfl

theorem mentionsAll_foldAll {es : List Expr} (h : ∀ e ∈ es, e.fold.mentions = e.mentions) :
    mentionsAll (foldAll es) = mentionsAll es := by
  induction es with
  | nil => rfl
  | cons e es ih =>
    obtain ⟨he, hes⟩ := List.forall_mem_cons.1 h
    rw [foldAll, mentionsAll, mentionsAll, he, ih hes]

/-- Folding keeps every variable and every call of an expression, in order. -/
theorem mentions_fold (e : Expr) : e.fold.mentions = e.mentions := by
  induction e using Expr.induction with
  | literal value => rfl
  | var v => rfl
  | binary op left right t ihl ihr => rw [fold, mentions_foldBinary, ihl, ihr, mentions]
  | unary op operand t ih => rw [fold, mentions_foldUnary, ih, mentions]
  | array elements t ih => exact mentionsAll_foldAll ih
  | subscript base index t ihb ihi => rw [fold, mentions, mentions, ihb, ihi]
  | call name args t ih =>
    have hlength : (foldAll args).length = args.length := by rw [foldAll_eq_map, List.length_map]
    rw [fold, mentions, mentions, hlength, mentionsAll_foldAll ih]

theorem mentions_comp_fold : mentions ∘ fold = mentions := funext mentions_fold

end Expr

/-! ## Statements -/

/-- A statement of whose expressions there is left what they mention. -/
inductive Skeleton where
  | print (argument : List Mention)
  | varDec (v : Variable) (initializer : List Mention)
  | assign (target source : List Mention)
  | loop (test : List Mention) (body : List Skeleton)
  | funDec (signature : Signature) (body : List Skeleton)
  | result (expression : Option (List Mention))
  | call (name : String) (args : List (List Mention)) (ty : Ty)

namespace Stmt

mutual

def skeleton : Stmt → Skeleton
  | print argument => .print argument.mentions
  | varDec v initializer => .varDec v initializer.mentions
  | assign target source => .assign target.mentions source.mentions
  | loop test body => .loop test.mentions (skeletons body)
  | funDec signature body => .funDec signature (skeletons body)
  | result expression => .result (expression.map Expr.mentions)
  | call name args ty => .call name (args.map Expr.mentions) ty

def skeletons : List Stmt → List Skeleton
  | [] => []
  | s :: ss => s.skeleton :: skeletons ss

end

theorem skeletons_foldAll (ss : List Stmt) : skeletons (foldAll ss) = skeletons ss := by
  induction ss using Stmt.induction (P := fun s => s.fold.skeleton = s.skeleton) with
  | step s ih =>
    cases s with
    | print argument => rw [fold, skeleton, skeleton, Expr.mentions_fold]
    | varDec v initializer => rw [fold, skeleton, skeleton, Expr.mentions_fold]
    | assign target source =>
      rw [fold, skeleton, skeleton, Expr.mentions_fold, Expr.mentions_fold]
    | loop test body =>
      rw [contents] at ih
      rw [fold, skeleton, skeleton, Expr.mentions_fold, ih]
    | funDec signature body =>
      rw [contents] at ih
      rw [fold, skeleton, skeleton, ih]
    | result expression =>
      rw [fold, skeleton, skeleton, Option.map_map, Expr.mentions_comp_fold]
    | call name args ty =>
      rw [fold, skeleton, skeleton, Expr.foldAll_eq_map, List.map_map,
        Expr.mentions_comp_fold]
  | nil => rfl
  | cons s ss hs ih => rw [foldAll, skeletons, skeletons, hs, ih]

end Stmt

namespace Program

def skeleton (p : Program) : List Skeleton := Stmt.skeletons p.statements

/-- Folding changes no statement, no nesting and nothing that is declared, and no variable and no
call of an expression is dropped, doubled or moved. -/
theorem skeleton_fold (p : Program) : p.fold.skeleton = p.skeleton :=
  Stmt.skeletons_foldAll p.statements

end Program

end Scriptlet
