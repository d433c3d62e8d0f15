import Scriptlet.Proofs.SyntaxTree.Shape
import Scriptlet.Token.Basic

/-!
The grammar of the language, as derivations. A derivation reads terminals from the front of a list
and leaves a rest: `DerivesExpr s ts rest shapes` says that what stands in `ts` before `rest` derives
from the symbol `s`, and that the derivation dictates the trees of shape `shapes`. The symbols of
expressions are the layers of precedence; only the lists give more or less than one tree.
-/

namespace Scriptlet

/-- A token without its place. -/
structure Terminal where
  kind : TokenKind
  value : String
deriving DecidableEq, Repr

def Token.terminal (t : Token) : Terminal := ⟨t.kind, t.value⟩

namespace Shape

/-- An operation with its sign between the operands. -/
def operation (left : Shape) (sign : Terminal) (right : Shape) : Shape :=
  .branch .binary [left, .leaf .op sign.value, right]

end Shape

/-- The rule of a token that is an expression of its own. -/
def TokenKind.atomRule? : TokenKind → Option Rule
  | .number => some .num
  | .identifier => some .id
  | .string => some .str
  | .trueWord => some .true
  | .falseWord => some .false
  | _ => none

/-- A name, and pairs of brackets after it. -/
inductive DerivesType : List Terminal → List Terminal → Shape → Prop where
  | name : x.kind = .identifier → DerivesType (x :: rest) rest (.leaf .type x.value)
  | array : DerivesType ts (l :: r :: rest) s → l.kind = .openBracket → r.kind = .closeBracket →
      DerivesType ts rest (.branch .arrayType [s])

inductive ExprSymbol where
  | expr
  | additive
  | multiplicative
  | unary
  | power
  | suffixed
  | primary
  /-- Expressions with commas between them. -/
  | exprs
  /-- The same, or nothing. -/
  | arguments
deriving DecidableEq, Repr

/-- Expressions. Sums and products group to the left, powers to the right, and comparisons not at
all; a call needs a name to its left, and parentheses around an expression leave no trace. -/
inductive DerivesExpr : ExprSymbol → List Terminal → List Terminal → List Shape → Prop where
  | ofAdditive : DerivesExpr .additive ts rest ss → DerivesExpr .expr ts rest ss
  | comparison : DerivesExpr .additive ts (o :: us) [l] → o.kind.isRelational = true →
      DerivesExpr .additive us rest [r] → DerivesExpr .expr ts rest [.operation l o r]
  | ofMultiplicative : DerivesExpr .multiplicative ts rest ss → DerivesExpr .additive ts rest ss
  | sum : DerivesExpr .additive ts (o :: us) [l] → o.kind = .plus ∨ o.kind = .dash →
      DerivesExpr .multiplicative us rest [r] → DerivesExpr .additive ts rest [.operation l o r]
  | ofUnary : DerivesExpr .unary ts rest ss → DerivesExpr .multiplicative ts rest ss
  | product : DerivesExpr .multiplicative ts (o :: us) [l] →
      o.kind = .star ∨ o.kind = .slash ∨ o.kind = .percent → DerivesExpr .unary us rest [r] →
      DerivesExpr .multiplicative ts rest [.operation l o r]
  | sign : o.kind = .dash ∨ o.kind = .bang → DerivesExpr .unary ts rest [e] →
      DerivesExpr .unary (o :: ts) rest [.branch .unary [.leaf .op o.value, e]]
  | ofPower : DerivesExpr .power ts rest ss → DerivesExpr .unary ts rest ss
  | ofSuffixed : DerivesExpr .suffixed ts rest ss → DerivesExpr .power ts rest ss
  | power : DerivesExpr .suffixed ts (o :: us) [l] → o.kind = .starStar →
      DerivesExpr .unary us rest [r] → DerivesExpr .power ts rest [.operation l o r]
  | ofPrimary : DerivesExpr .primary ts rest ss → DerivesExpr .suffixed ts rest ss
  | subscript : DerivesExpr .suffixed ts (o :: us) [b] → o.kind = .openBracket →
      DerivesExpr .expr us (c :: rest) [i] → c.kind = .closeBracket →
      DerivesExpr .suffixed ts rest [.branch .subscript [b, i]]
  | call : DerivesExpr .suffixed ts (o :: us) [f] → f.rule = .id → o.kind = .openParen →
      DerivesExpr .arguments us (c :: rest) args → c.kind = .closeParen →
      DerivesExpr .suffixed ts rest [.branch .call (f :: args)]
  | atom : x.kind.atomRule? = some rule → DerivesExpr .primary (x :: rest) rest [.leaf rule x.value]
  | group : o.kind = .openParen → DerivesExpr .expr ts (c :: rest) [e] → c.kind = .closeParen →
      DerivesExpr .primary (o :: ts) rest [e]
  | array : o.kind = .openBracket → DerivesExpr .arguments ts (c :: rest) es →
      c.kind = .closeBracket → DerivesExpr .primary (o :: ts) rest [.branch .arrayLit es]
  | one : DerivesExpr .expr ts rest [e] → DerivesExpr .exprs ts rest [e]
  | more : DerivesExpr .expr ts (c :: us) [e] → c.kind = .comma → DerivesExpr .exprs us rest es →
      DerivesExpr .exprs ts rest (e :: es)
  | noArguments : DerivesExpr .arguments rest rest []
  | someArguments : DerivesExpr .exprs ts rest es → DerivesExpr .arguments ts rest es

inductive StmtSymbol where
  | statements
  | statement
  | block
  | parameter
  /-- Parameters with commas between them. -/
  | parameters
  /-- The same, or nothing. -/
  | parameterList
  /-- An arrow and a type, or nothing. -/
  | returnType
deriving DecidableEq, Repr

/-- Statements. What no reserved word begins is an assignment or a call, as the tree of its first
expression says. -/
inductive DerivesStmt : StmtSymbol → List Terminal → List Terminal → List Shape → Prop where
  | nil : DerivesStmt .statements rest rest []
  | cons : DerivesStmt .statement ts us [s] → DerivesStmt .statements us rest ss →
      DerivesStmt .statements ts rest (s :: ss)
  | block : o.kind = .openParen → DerivesStmt .statements ts (c :: rest) ss →
      c.kind = .closeParen → DerivesStmt .block (o :: ts) rest [.branch .block ss]
  | declaration : w.kind = .letWord → x.kind = .identifier → q.kind = .assignment →
      DerivesExpr .expr ts (d :: rest) [e] → d.kind = .semicolon →
      DerivesStmt .statement (w :: x :: q :: ts) rest [.branch .varDec [.leaf .id x.value, e]]
  | print : w.kind = .printWord → o.kind = .openParen → DerivesExpr .expr ts (c :: d :: rest) [e] →
      c.kind = .closeParen → d.kind = .semicolon →
      DerivesStmt .statement (w :: o :: ts) rest [.branch .printStmt [e]]
  | loop : w.kind = .whileWord → DerivesExpr .expr ts (d :: us) [e] → d.kind = .colon →
      DerivesStmt .block us rest [b] →
        DerivesStmt .statement (w :: ts) rest [.branch .whileStmt [e, b]]
  | function : w.kind = .funWord → x.kind = .identifier → o.kind = .openParen →
      DerivesStmt .parameterList ts (c :: us) params → c.kind = .closeParen →
      DerivesStmt .returnType us (d :: vs) type → d.kind = .colon →
      DerivesStmt .block vs rest [b] →
      DerivesStmt .statement (w :: x :: o :: ts) rest
        [.branch .funDec (.leaf .id x.value :: .branch .params params :: type ++ [b])]
  | result : w.kind = .returnWord → d.kind = .semicolon →
      DerivesStmt .statement (w :: d :: rest) rest [.branch .returnStmt []]
  | resultOf : w.kind = .returnWord → DerivesExpr .expr ts (d :: rest) [e] → d.kind = .semicolon →
      DerivesStmt .statement (w :: ts) rest [.branch .returnStmt [e]]
  | assignment : DerivesExpr .expr ts (q :: us) [t] → t.rule = .id ∨ t.rule = .subscript →
      q.kind = .assignment → DerivesExpr .expr us (d :: rest) [e] → d.kind = .semicolon →
      DerivesStmt .statement ts rest [.branch .assignStmt [t, e]]
  | call : DerivesExpr .expr ts (d :: rest) [f] → f.rule = .call → d.kind = .semicolon →
      DerivesStmt .statement ts rest [.branch .callStmt [f]]
  | parameter : x.kind = .identifier → d.kind = .colon → DerivesType ts rest t →
      DerivesStmt .parameter (x :: d :: ts) rest [.branch .param [.leaf .id x.value, t]]
  | one : DerivesStmt .parameter ts rest [p] → DerivesStmt .parameters ts rest [p]
  | more : DerivesStmt .parameter ts (c :: us) [p] → c.kind = .comma →
      DerivesStmt .parameters us rest ps → DerivesStmt .parameters ts rest (p :: ps)
  | noParameters : DerivesStmt .parameterList rest rest []
  | someParameters : DerivesStmt .parameters ts rest ps → DerivesStmt .parameterList ts rest ps
  | noType : DerivesStmt .returnType rest rest []
  | someType : a.kind = .arrow → DerivesType ts rest t → DerivesStmt .returnType (a :: ts) rest [t]

/-- Statements, and the end of the text. -/
inductive DerivesProgram : List Terminal → Shape → Prop where
  | intro : DerivesStmt .statements ts [e] ss → e.kind = .endOfText →
      DerivesProgram ts (.branch .program ss)

end Scriptlet
