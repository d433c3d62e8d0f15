import Scriptlet.Program.Basic

/-! Equality of programs: the same structure over literals that are the same. -/

namespace Scriptlet

mutual

def Expr.beq : Expr → Expr → Bool
  | .literal a, .literal b => a == b
  | .var a, .var b => a == b
  | .binary op l r ty, .binary op' l' r' ty' =>
    op == op' && Expr.beq l l' && Expr.beq r r' && ty == ty'
  | .unary op e ty, .unary op' e' ty' => op == op' && Expr.beq e e' && ty == ty'
  | .array es ty, .array es' ty' => Expr.beqAll es es' && ty == ty'
  | .subscript a i ty, .subscript a' i' ty' => Expr.beq a a' && Expr.beq i i' && ty == ty'
  | .call f args ty, .call f' args' ty' => f == f' && Expr.beqAll args args' && ty == ty'
  | _, _ => false

def Expr.beqAll : List Expr → List Expr → Bool
  | [], [] => true
  | e :: es, e' :: es' => Expr.beq e e' && Expr.beqAll es es'
  | _, _ => false

end

instance : BEq Expr := ⟨Expr.beq⟩

mutual

def Stmt.beq : Stmt → Stmt → Bool
  | .print e, .print e' => e == e'
  | .varDec v e, .varDec v' e' => v == v' && e == e'
  | .assign t s, .assign t' s' => t == t' && s == s'
  | .loop e body, .loop e' body' => e == e' && Stmt.beqAll body body'
  | .funDec f body, .funDec f' body' => f == f' && Stmt.beqAll body body'
  | .result e, .result e' => e == e'
  | .call f args ty, .call f' args' ty' => f == f' && Expr.beqAll args args' && ty == ty'
  | _, _ => false

def Stmt.beqAll : List Stmt → List Stmt → Bool
  | [], [] => true
  | s :: ss, s' :: ss' => Stmt.beq s s' && Stmt.beqAll ss ss'
  | _, _ => false

end

instance : BEq Stmt := ⟨Stmt.beq⟩

instance : BEq Program := ⟨fun p q => p.statements == q.statements⟩

end Scriptlet
