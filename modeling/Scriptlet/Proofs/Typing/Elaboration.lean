import Mathlib.Data.List.Forall2
import Scriptlet.Proofs.SyntaxTree.Shape
import Scriptlet.Typing.Expr

/-!
The rules of typing, as relations between trees and typed programs. What a rule knows of its place
is the list of functions that are declared before it, wherever in the program, the list of variables
that can be seen from it, the nearest first, and the type that the function around it returns.
-/

namespace Scriptlet

/-! ## Numbers -/

/-- One digit or more. -/
def IsDigits (ds : List Char) : Prop := ds ≠ [] ∧ ∀ c ∈ ds, c.isDigit = true

/-- The places after the point of a number, which may have none. -/
inductive DenotesPlaces : List Char → List Char → Prop where
  | none : DenotesPlaces [] []
  | some {ds : List Char} : IsDigits ds → DenotesPlaces ('.' :: ds) ds

/-- The power of ten at the end of a number, which may have none. -/
inductive DenotesPower : List Char → Int → Prop where
  | none : DenotesPower [] 0
  | unsigned {mark : Char} {ds : List Char} : mark = 'e' ∨ mark = 'E' → IsDigits ds →
      DenotesPower (mark :: ds) (Nat.ofDigitChars 10 ds 0)
  | plus {mark : Char} {ds : List Char} : mark = 'e' ∨ mark = 'E' → IsDigits ds →
      DenotesPower (mark :: '+' :: ds) (Nat.ofDigitChars 10 ds 0)
  | minus {mark : Char} {ds : List Char} : mark = 'e' ∨ mark = 'E' → IsDigits ds →
      DenotesPower (mark :: '-' :: ds) (-Nat.ofDigitChars 10 ds 0)

/-- The number that a text stands for. With the mark `n` it is an integer, which must fit into 128
bits. Without, it is a float: its digits, those after the point too, times a power of ten that is
less by one for each of the places. -/
inductive DenotesNumber : List Char → Literal → Prop where
  | wide {ds : List Char} {value : Int128} : IsDigits ds → value.val = Nat.ofDigitChars 10 ds 0 →
      DenotesNumber (ds ++ ['n']) (.bigInt value)
  | float {whole fraction places exponent : List Char} {power scale : Int} : IsDigits whole →
      DenotesPlaces fraction places → DenotesPower exponent power → scale = power - places.length →
      DenotesNumber (whole ++ fraction ++ exponent) (.number
        (Float.ofScientific (Nat.ofDigitChars 10 (whole ++ places) 0) (scale < 0) scale.natAbs))

/-! ## Types and expressions -/

/-- The type that a tree describes. -/
inductive DenotesType : Shape → Ty → Prop where
  | name (s : Scalar) : DenotesType (.leaf .type s.name) (.scalar s)
  | array : DenotesType s t → DenotesType (.branch .arrayType [s]) (.array t)

/-- The types of the operands and of the result. -/
inductive BinaryOp.HasTypes : BinaryOp → Ty → Ty → Ty → Prop where
  | relational : op.isRelational = true → HasTypes op t t .bool
  | additive : op = .add ∨ op = .subtract → HasTypes op t t t
  | numeric : op = .multiply ∨ op = .divide ∨ op = .modulo ∨ op = .power →
      HasTypes op .num .num .num

mutual

/-- Expressions and their types. A name stands for the nearest variable of that name. -/
inductive ElabExpr (Φ : List Signature) (Γ : List Variable) : Shape → Expr → Ty → Prop where
  | number : DenotesNumber text.toList value → ElabExpr Φ Γ (.leaf .num text) (.literal value) .num
  | string : ElabExpr Φ Γ (.leaf .str text) (.literal (.str text)) .str
  | true : ElabExpr Φ Γ (.leaf .true text) (.literal (.bool true)) .bool
  | false : ElabExpr Φ Γ (.leaf .false text) (.literal (.bool false)) .bool
  | var : Γ.find? (·.name = name) = some v → ElabExpr Φ Γ (.leaf .id name) (.var v) v.ty
  | binary : ElabExpr Φ Γ l l' t₁ → ElabExpr Φ Γ r r' t₂ → op.HasTypes t₁ t₂ t →
      ElabExpr Φ Γ (.branch .binary [l, .leaf .op op.symbol, r]) (.binary op l' r' t) t
  | negate : ElabExpr Φ Γ s e .num →
      ElabExpr Φ Γ (.branch .unary [.leaf .op "-", s]) (.unary .negate e .num) .num
  | not : ElabExpr Φ Γ s e .bool →
      ElabExpr Φ Γ (.branch .unary [.leaf .op "!", s]) (.unary .not e .bool) .bool
  | array : ElabExprs Φ Γ ss es ts → ts ≠ [] → (∀ u ∈ ts, u = t) →
      ElabExpr Φ Γ (.branch .arrayLit ss) (.array es (.array t)) (.array t)
  | subscript : ElabExpr Φ Γ b b' (.array t) → ElabExpr Φ Γ i i' .num →
      ElabExpr Φ Γ (.branch .subscript [b, i]) (.subscript b' i' t) t
  | call : f ∈ Φ → ElabExprs Φ Γ ss args (f.params.map Variable.ty) →
      ElabExpr Φ Γ (.branch .call (.leaf .id f.name :: ss)) (.call f.name args f.returnType)
        f.returnType

/-- Lists of expressions, with a type for each. -/
inductive ElabExprs (Φ : List Signature) (Γ : List Variable) :
    List Shape → List Expr → List Ty → Prop where
  | nil : ElabExprs Φ Γ [] [] []
  | cons : ElabExpr Φ Γ s e t → ElabExprs Φ Γ ss es ts →
      ElabExprs Φ Γ (s :: ss) (e :: es) (t :: ts)

end

/-! ## What statements declare and return -/

namespace Stmt

mutual

/-- The functions that a statement declares, in its parts too. -/
def functions : Stmt → List Signature
  | loop _ body => functionsAll body
  | funDec f body => f :: functionsAll body
  | _ => []

def functionsAll : List Stmt → List Signature
  | [] => []
  | s :: ss => s.functions ++ functionsAll ss

end

/-- The variable that a statement declares in the block where it stands. -/
def declaration? : Stmt → Option Variable
  | varDec v _ => some v
  | _ => none

/-- The variables of a block. -/
def declarations (body : List Stmt) : List Variable := body.filterMap declaration?

/-- The statement is a `return`, or a loop with one in it. -/
inductive Returns : Stmt → Prop where
  | result : Returns (result e)
  | loop : s ∈ body → Returns s → Returns (loop test body)

end Stmt

/-- No name is declared twice. -/
def DeclaredOnce (vs : List Variable) : Prop := (vs.map Variable.name).Nodup

/-! ## Statements and programs -/

inductive ElabParam : Shape → Variable → Prop where
  | intro : DenotesType s t → ElabParam (.branch .param [.leaf .id name, s]) ⟨name, t⟩

/-- A function without a return type returns nothing. -/
inductive DenotesReturnType : List Shape → Ty → Prop where
  | none : DenotesReturnType [] .void
  | some : DenotesType s t → DenotesReturnType [s] t

mutual

/-- Statements. A loop and a function open a block, and the parameters belong to the block of the
function; a function can be called in its own body. -/
inductive ElabStmt : List Signature → List Variable → Option Ty → Shape → Stmt → Prop where
  | print : ElabExpr Φ Γ s e t → ElabStmt Φ Γ ρ (.branch .printStmt [s]) (.print e)
  | varDec : ElabExpr Φ Γ s e t →
      ElabStmt Φ Γ ρ (.branch .varDec [.leaf .id name, s]) (.varDec ⟨name, t⟩ e)
  | assign : ElabExpr Φ Γ s e t → ElabExpr Φ Γ s' e' t →
      ElabStmt Φ Γ ρ (.branch .assignStmt [s, s']) (.assign e e')
  | loop : ElabExpr Φ Γ s e .bool → ElabStmts Φ Γ ρ ss body →
      DeclaredOnce (Stmt.declarations body) →
      ElabStmt Φ Γ ρ (.branch .whileStmt [s, .branch .block ss]) (.loop e body)
  | function : List.Forall₂ ElabParam ps params → DenotesReturnType type t →
      ElabStmts (Φ ++ [⟨name, params, t⟩]) (params.reverse ++ Γ) (some t) ss body →
      DeclaredOnce (params ++ Stmt.declarations body) → t = .void ∨ (∃ s ∈ body, s.Returns) →
      ElabStmt Φ Γ ρ
        (.branch .funDec (.leaf .id name :: .branch .params ps :: (type ++ [.branch .block ss])))
        (.funDec ⟨name, params, t⟩ body)
  | result : ElabStmt Φ Γ (some .void) (.branch .returnStmt []) (.result none)
  | resultOf : ElabExpr Φ Γ s e t → t ≠ .void →
      ElabStmt Φ Γ (some t) (.branch .returnStmt [s]) (.result (some e))
  | call : ElabExpr Φ Γ s (.call name args t) t →
      ElabStmt Φ Γ ρ (.branch .callStmt [s]) (.call name args t)

/-- The statements of a block. What one declares is known to those after it. -/
inductive ElabStmts :
    List Signature → List Variable → Option Ty → List Shape → List Stmt → Prop where
  | nil : ElabStmts Φ Γ ρ [] []
  | cons : ElabStmt Φ Γ ρ s t → ElabStmts (Φ ++ t.functions) (t.declaration?.toList ++ Γ) ρ ss ts →
      ElabStmts Φ Γ ρ (s :: ss) (t :: ts)

end

/-- Programs. No two functions have the same name, wherever they stand. -/
inductive Elaborates : Shape → Program → Prop where
  | intro : ElabStmts [] [] none ss ts → DeclaredOnce (Stmt.declarations ts) →
      ((Stmt.functionsAll ts).map Signature.name).Nodup →
      Elaborates (.branch .program ss) ⟨ts⟩

end Scriptlet
