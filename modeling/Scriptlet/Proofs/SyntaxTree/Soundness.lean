import Scriptlet.Proofs.SyntaxTree.Reading

/-!
Readings are derivations: what the parser takes from a cursor derives from the symbol of its goal,
and the derivation dictates the shape of the node.

For expressions the loop over trailing constructs carries two derivations of the same tree: one from
the symbol of the goal, and one from the symbol that the token at the cursor wants to its left.
-/

namespace Scriptlet

open ParseM

/-! ## Layers -/

/-- From loose to tight. The lists stand outside. -/
def ExprSymbol.layer : ExprSymbol → Nat
  | exprs | arguments => 0
  | expr => 1
  | additive => 2
  | multiplicative => 3
  | unary => 4
  | power => 5
  | suffixed => 6
  | primary => 7

/-- What derives from a layer derives from the looser ones. -/
theorem DerivesExpr.loosen {s s' : ExprSymbol} (h : DerivesExpr s ts rest ss)
    (hs : 0 < s'.layer) (hle : s'.layer ≤ s.layer) : DerivesExpr s' ts rest ss := by
  cases s <;> cases s' <;> simp only [ExprSymbol.layer] at hs hle <;>
    first | omega | repeat (first | exact h | constructor)

namespace Power

/-- The symbol of the operands that are read at a power. -/
def operandSymbol : Power → ExprSymbol
  | default => .expr
  | relational => .additive
  | additive => .multiplicative
  | _ => .unary

/-- The symbol of what stands to the left of a token with the power. -/
def leftSymbol : Power → ExprSymbol
  | default => .expr
  | relational | additive => .additive
  | multiplicative => .multiplicative
  | unary => .unary
  | _ => .suffixed

theorem operandSymbol_layer (p : Power) :
    0 < p.operandSymbol.layer ∧ p.operandSymbol.layer ≤ 4 := by
  cases p <;> decide

theorem leftSymbol_layer (p : Power) : 0 < p.leftSymbol.layer ∧ p.leftSymbol.layer ≤ 6 := by
  cases p <;> decide

theorem leftSymbol_layer_mono {p q : Power} (h : ¬p < q) :
    q.leftSymbol.layer ≤ p.leftSymbol.layer := by
  revert h
  cases p <;> cases q <;> decide

/-- What an operator takes on its left is an operand for every looser power. -/
theorem operandSymbol_layer_le {p q : Power} (h : p < q) :
    p.operandSymbol.layer ≤ q.leftSymbol.layer := by
  revert h
  cases p <;> cases q <;> decide

theorem leftSymbol_layer_le_operandSymbol {p : Power} (h : ¬unary < p) :
    p.leftSymbol.layer ≤ p.operandSymbol.layer := by
  revert h
  cases p <;> decide

/-- A comparison is taken only in a whole expression. -/
theorem eq_default_of_lt_relational {p : Power} (h : p < relational) : p = default := by
  revert h
  cases p <;> decide

end Power

namespace Operators

/-- The constructs that continue an expression, by the token that does it. -/
theorem trailing_expressions {k : TokenKind} {t : Trailing} (h : expressions.trailing k = some t) :
    (t = .comparison ∧ k.isRelational = true ∧ expressions.power k = .relational) ∨
      (t = .binary ∧ (k = .plus ∨ k = .dash) ∧ expressions.power k = .additive) ∨
      (t = .binary ∧ (k = .star ∨ k = .slash ∨ k = .percent) ∧
        expressions.power k = .multiplicative) ∨
      (t = .exponent ∧ k = .starStar ∧ expressions.power k = .exponential) ∨
      (t = .call ∧ k = .openParen ∧ expressions.power k = .call) ∨
      (t = .subscript ∧ k = .openBracket ∧ expressions.power k = .call) := by
  cases k <;> cases h <;> simp [expressions, TokenKind.isRelational]

/-- The constructs that begin an expression, by the token that does it. -/
theorem leading_expressions {k : TokenKind} {l : Leading} (h : expressions.leading k = some l) :
    (l = .primary ∧ k.atomRule? ≠ none) ∨ (l = .unary ∧ (k = .dash ∨ k = .bang)) ∨
      (l = .grouping ∧ k = .openParen) ∨ (l = .array ∧ k = .openBracket) := by
  cases k <;> cases h <;> simp [TokenKind.atomRule?]

/-- A type begins with a name. -/
theorem leading_types {k : TokenKind} {l : Leading} (h : types.leading k = some l) :
    l = .namedType := by
  cases k <;> cases h
  rfl

/-- Only brackets continue a type. -/
theorem trailing_types {k : TokenKind} {t : Trailing} (h : types.trailing k = some t) :
    t = .arrayType := by
  cases k <;> cases h
  rfl

theorem isRelational_of_default {k : TokenKind} (h : expressions.power k = .default) :
    k.isRelational = false := by
  revert h
  cases k <;> decide

theorem expressions_relational {k : TokenKind} (h : k.isRelational = true) :
    expressions.trailing k = some .comparison ∧ expressions.power k = .relational := by
  cases k <;> cases h <;> exact ⟨rfl, rfl⟩

theorem expressions_sum {k : TokenKind} (h : k = .plus ∨ k = .dash) :
    expressions.trailing k = some .binary ∧ expressions.power k = .additive := by
  rcases h with rfl | rfl <;> exact ⟨rfl, rfl⟩

theorem expressions_product {k : TokenKind} (h : k = .star ∨ k = .slash ∨ k = .percent) :
    expressions.trailing k = some .binary ∧ expressions.power k = .multiplicative := by
  rcases h with rfl | rfl | rfl <;> exact ⟨rfl, rfl⟩

end Operators

/-! ## Goals -/

namespace Goal

/-- The goals that the constructs of the language ask for. -/
def Standard : Goal → Prop
  | expr power => ¬Power.unary < power
  | type power => power = .default
  | stmt => True

instance (goal : Goal) : Decidable goal.Standard :=
  match goal with
  | expr power => inferInstanceAs (Decidable (¬Power.unary < power))
  | type power => inferInstanceAs (Decidable (power = .default))
  | stmt => isTrue trivial

/-- What was read derives from the symbol of the goal, and no operator follows an expression that
would still belong to it. -/
def Reads : Goal → Cursor → Node → Cursor → Prop
  | expr power, c, n, c' => DerivesExpr power.operandSymbol c.terminals c'.terminals [n.shape] ∧
      ¬power < Operators.expressions.power c'.kind
  | type _, c, n, c' => DerivesType c.terminals c'.terminals n.shape
  | stmt, c, n, c' => DerivesStmt .statement c.terminals c'.terminals [n.shape]

end Goal

/-- Whatever `solve` reads for a goal is what the goal asks for. -/
def Sound (solve : Goal → ParseM Node) : Prop :=
  ∀ goal : Goal, goal.Standard → ∀ {c n c'}, c.Ended → solve goal c = .ok n c' →
    goal.Reads c n c' ∧ c'.Ended

section

variable {p : Parser} {solve : Goal → ParseM Node} {c c' : Cursor} {node left : Node}

/-- Items and the commas between them, for a derivation `I` of items and `L` of lists. -/
theorem separated_sound {item : ParseM Node} {I : List Terminal → List Terminal → Shape → Prop}
    {L : List Terminal → List Terminal → List Shape → Prop}
    (one : ∀ {ts rest s}, I ts rest s → L ts rest [s])
    (more : ∀ {ts us rest c s ss}, I ts (c :: us) s → Terminal.kind c = .comma → L us rest ss →
      L ts rest (s :: ss))
    (hitem : ∀ {c n c'}, c.Ended → item c = .ok n c' →
      I c.terminals c'.terminals n.shape ∧ c'.Ended)
    {nodes : List Node} (hc : c.Ended) (h : Parser.ReadsSeparated item c nodes c') :
    L c.terminals c'.terminals (Node.shapes nodes) ∧ c'.Ended := by
  induction h with
  | one hn =>
    obtain ⟨hd, hc'⟩ := hitem hc hn
    exact ⟨one hd, hc'⟩
  | more hn hk _ ih =>
    obtain ⟨hd, hc₁⟩ := hitem hc hn
    obtain ⟨ht, hc₂⟩ := hc₁.take hk (by simp)
    obtain ⟨hds, hc'⟩ := ih hc₂
    rw [ht] at hd
    exact ⟨more hd hk hds, hc'⟩

/-- A list up to its closing bracket is derived as arguments. -/
theorem exprList_sound (hs : Sound solve) {close : TokenKind} (hclose : close ≠ .endOfText)
    {nodes : List Node} (hc : c.Ended) (h : Parser.exprList solve close c = .ok nodes c') :
    ∃ t, t.kind = close ∧
      DerivesExpr .arguments c.terminals (t :: c'.terminals) (Node.shapes nodes) ∧ c'.Ended := by
  rcases Parser.exprList_eq_ok.1 h with ⟨hk, rfl, rfl⟩ | ⟨-, nodes, c₁, hl, hk, rfl, rfl⟩
  · obtain ⟨ht, hc'⟩ := hc.take hk hclose
    exact ⟨c.current.terminal, hk, ht ▸ .noArguments, hc'⟩
  · have hitem : ∀ {c n c'}, c.Ended → solve (.expr .default) c = .ok n c' →
        DerivesExpr .expr c.terminals c'.terminals [n.shape] ∧ c'.Ended :=
      fun hc h => (hs (.expr .default) (by decide) hc h).imp_left And.left
    obtain ⟨hd, hc₁⟩ := separated_sound (L := DerivesExpr .exprs)
      (I := fun ts rest s => DerivesExpr .expr ts rest [s]) .one .more hitem hc
      (Parser.readsSeparated_of_commaSeparated hl)
    obtain ⟨ht, hc'⟩ := hc₁.take hk hclose
    rw [ht] at hd
    exact ⟨c₁.current.terminal, hk, .someArguments hd, hc'⟩

/-! ## Expressions -/

/-- The tree to the left of the cursor, both as an operand at `power` and as the left operand of the
token at the cursor. -/
structure LeftOf (power : Power) (ts : List Terminal) (left : Node) (c : Cursor) : Prop where
  operand : DerivesExpr power.operandSymbol ts c.terminals [left.shape]
  continued :
    DerivesExpr (Operators.expressions.power c.kind).leftSymbol ts c.terminals [left.shape]
  ended : c.Ended

/-- A tree of some layer is an operand for the power and for the operator at the cursor, if neither
asks for a tighter layer. -/
theorem LeftOf.of_layer {power : Power} {s : ExprSymbol}
    (h : DerivesExpr s ts c.terminals [left.shape])
    (hc : c.Ended) (hp : power.operandSymbol.layer ≤ s.layer)
    (hq : (Operators.expressions.power c.kind).leftSymbol.layer ≤ s.layer) :
    LeftOf power ts left c :=
  ⟨h.loosen power.operandSymbol_layer.1 hp, h.loosen (Power.leftSymbol_layer _).1 hq, hc⟩

/-- A primary expression with calls and subscripts may be continued by every token. -/
theorem LeftOf.of_suffixed {power : Power} (h : DerivesExpr .suffixed ts c.terminals [left.shape])
    (hc : c.Ended) : LeftOf power ts left c :=
  .of_layer h hc (Nat.le_trans power.operandSymbol_layer.2 (by decide)) (Power.leftSymbol_layer _).2

/-- What begins an expression is a primary, or a sign before an operand. -/
theorem leading_sound (hs : Sound solve) {power : Power} {l : Leading} (hc : c.Ended)
    (hl : Operators.expressions.leading c.kind = some l) (h : p.leading solve l c = .ok node c') :
    LeftOf power c.terminals node c' := by
  rcases Operators.leading_expressions hl with ⟨rfl, hk⟩ | ⟨rfl, hk⟩ | ⟨rfl, hk⟩ | ⟨rfl, hk⟩
  · obtain ⟨rule, hr, rfl, rfl⟩ := Parser.primary_eq_ok.1 h
    have hleaf : rule.isLeaf = true ∧ c.kind ≠ .endOfText := by
      generalize c.kind = k at hr
      cases k <;> cases hr <;> decide
    obtain ⟨ht, hc'⟩ := hc.take rfl hleaf.2
    rw [ht]
    apply LeftOf.of_suffixed _ hc'
    rw [Parser.shape_leaf hleaf.1]
    exact .ofPrimary (.atom hr)
  · obtain ⟨operand, c₁, ho, rfl, rfl⟩ := Parser.unary_eq_ok.1 h
    have hne : c.kind ≠ .endOfText := by rcases hk with hk | hk <;> simp [hk]
    obtain ⟨ht, hc₁⟩ := hc.take rfl hne
    obtain ⟨⟨hd, hq⟩, hc'⟩ := hs (.expr .unary) (by decide) hc₁ ho
    rw [ht]
    apply LeftOf.of_layer (s := .unary) _ hc' power.operandSymbol_layer.2
      (Power.leftSymbol_layer_mono hq)
    rw [Parser.shape_nodeTo rfl, Node.shapes_cons, Node.shapes_cons, Parser.shape_leaf rfl]
    exact .sign hk hd
  · obtain ⟨inner, c₁, hi, hk', rfl, rfl⟩ := Parser.grouping_eq_ok.1 h
    obtain ⟨ht, hc₁⟩ := hc.take hk (by simp)
    obtain ⟨⟨hd, -⟩, hc₂⟩ := hs (.expr .default) (by decide) hc₁ hi
    obtain ⟨ht', hc'⟩ := hc₂.take hk' (by simp)
    rw [ht]
    rw [ht'] at hd
    exact .of_suffixed (.ofPrimary (.group hk hd hk')) hc'
  · obtain ⟨elements, c₁, he, rfl, rfl⟩ := Parser.array_eq_ok.1 h
    obtain ⟨ht, hc₁⟩ := hc.take hk (by simp)
    obtain ⟨t, hk', hd, hc'⟩ := exprList_sound hs (by decide) hc₁ he
    rw [ht]
    apply LeftOf.of_suffixed _ hc'
    rw [Parser.shape_nodeTo rfl]
    exact .ofPrimary (.array hk hd hk')

/-- An operation whose right operand is read at `q`. -/
theorem binary_sound (hs : Sound solve) {q : Power} (hq : ¬Power.unary < q) (hc : c.Ended)
    (hk : c.kind ≠ .endOfText) (h : p.binary solve left q c = .ok node c') :
    ∃ right us, c.terminals = c.current.terminal :: us ∧
      DerivesExpr q.operandSymbol us c'.terminals [right] ∧
      node.shape = .operation left.shape c.current.terminal right ∧
      ¬q < Operators.expressions.power c'.kind ∧ c'.Ended := by
  obtain ⟨right, c₁, hr, rfl, rfl⟩ := Parser.binary_eq_ok.1 h
  obtain ⟨ht, hc₁⟩ := hc.take rfl hk
  obtain ⟨⟨hd, hn⟩, hc'⟩ := hs (.expr q) hq hc₁ hr
  refine ⟨right.shape, c.next.terminals, ht, hd, ?_, hn, hc'⟩
  rw [Parser.shape_nodeTo rfl, Node.shapes_cons, Node.shapes_cons, Parser.shape_leaf rfl]
  rfl

/-- An operator after an operand makes an operand of its own layer. -/
theorem trailing_sound (hs : Sound solve) {power : Power} {t : Trailing}
    (hleft : LeftOf power ts left c) (hp : power < Operators.expressions.power c.kind)
    (ht : Operators.expressions.trailing c.kind = some t)
    (h : p.trailing solve left (Operators.expressions.power c.kind) t c = .ok node c') :
    LeftOf power ts node c' := by
  obtain ⟨-, hl, hc⟩ := hleft
  have hne : c.kind ≠ .endOfText := by
    intro hk
    rw [hk] at ht
    cases ht
  have hlayer := Power.operandSymbol_layer_le hp
  rcases Operators.trailing_expressions ht with ⟨rfl, hk, hq⟩ | ⟨rfl, hk, hq⟩ | ⟨rfl, hk, hq⟩ |
    ⟨rfl, hk, hq⟩ | ⟨rfl, hk, hq⟩ | ⟨rfl, hk, hq⟩ <;> rw [hq] at h hl hlayer hp
  · -- The check after a comparison leaves no token that could continue it.
    obtain ⟨h, hrel⟩ := Parser.comparison_eq_ok.1 h
    obtain ⟨right, us, hts, hd, hshape, hn, hc'⟩ := binary_sound hs (by decide) hc hne h
    have hdefault : Operators.expressions.power c'.kind = .default := by
      generalize c'.kind = k at hn hrel
      revert hn hrel
      cases k <;> decide
    cases Power.eq_default_of_lt_relational hp
    rw [hts] at hl
    apply LeftOf.of_layer (s := .expr) _ hc' (by decide) (by rw [hdefault]; decide)
    rw [hshape]
    exact .comparison hl hk hd
  · obtain ⟨right, us, hts, hd, hshape, hn, hc'⟩ := binary_sound hs (by decide) hc hne h
    rw [hts] at hl
    apply LeftOf.of_layer (s := .additive) _ hc' hlayer (Power.leftSymbol_layer_mono hn)
    rw [hshape]
    exact .sum hl hk hd
  · obtain ⟨right, us, hts, hd, hshape, hn, hc'⟩ := binary_sound hs (by decide) hc hne h
    rw [hts] at hl
    apply LeftOf.of_layer (s := .multiplicative) _ hc' hlayer (Power.leftSymbol_layer_mono hn)
    rw [hshape]
    exact .product hl hk hd
  · obtain ⟨right, us, hts, hd, hshape, hn, hc'⟩ := binary_sound hs (by decide) hc hne h
    rw [hts] at hl
    apply LeftOf.of_layer (s := .unary) _ hc' power.operandSymbol_layer.2
      (Power.leftSymbol_layer_mono hn)
    rw [hshape]
    exact .ofPower (.power hl hk hd)
  · obtain ⟨hid, arguments, c₁, ha, rfl, rfl⟩ := Parser.call_eq_ok.1 h
    obtain ⟨hts, hc₁⟩ := hc.take hk (by simp)
    obtain ⟨close, hk', hd, hc'⟩ := exprList_sound hs (by decide) hc₁ ha
    rw [hts] at hl
    apply LeftOf.of_suffixed _ hc'
    rw [Parser.shape_nodeTo rfl, Node.shapes_cons]
    exact .call hl (by simpa using hid) hk hd hk'
  · obtain ⟨index, c₁, hi, hk', rfl, rfl⟩ := Parser.subscript_eq_ok.1 h
    obtain ⟨hts, hc₁⟩ := hc.take hk (by simp)
    obtain ⟨⟨hd, -⟩, hc₂⟩ := hs (.expr .default) (by decide) hc₁ hi
    obtain ⟨hts', hc'⟩ := hc₂.take hk' (by simp)
    rw [hts] at hl
    rw [hts'] at hd
    apply LeftOf.of_suffixed _ hc'
    rw [Parser.shape_nodeTo rfl, Node.shapes_cons, Node.shapes_cons, Node.shapes_nil]
    exact .subscript hl hk hd hk'

/-- The invariant of the loop: what has been read is an operand for the power, and for the operator
at the cursor. -/
theorem continues_sound (hs : Sound solve) {power : Power} (hleft : LeftOf power ts left c)
    (h : p.Continues solve .expressions power left c node c') :
    DerivesExpr power.operandSymbol ts c'.terminals [node.shape] ∧
      ¬power < Operators.expressions.power c'.kind ∧ c'.Ended := by
  induction h with
  | done hp => exact ⟨hleft.operand, hp, hleft.ended⟩
  | next hp ht hn _ ih => exact ih (trailing_sound hs hleft hp ht hn)

/-- An expression for a power is of the layer of the power, and what follows binds no tighter. -/
theorem operand_sound (hs : Sound solve) {power : Power} (hc : c.Ended)
    (h : p.operand solve .expressions power c = .ok node c') :
    (Goal.expr power).Reads c node c' ∧ c'.Ended := by
  obtain ⟨l, hl, first, c₁, hf, h⟩ := Parser.operand_eq_ok.1 h
  obtain ⟨hd, hp, hc'⟩ :=
    continues_sound hs (leading_sound hs hc hl hf) (Parser.continues_of_extend h)
  exact ⟨⟨hd, hp⟩, hc'⟩

/-! ## Types -/

theorem continues_types_sound (hc : c.Ended) (hleft : DerivesType ts c.terminals left.shape)
    (h : p.Continues solve .types .default left c node c') :
    DerivesType ts c'.terminals node.shape ∧ c'.Ended := by
  induction h with
  | done => exact ⟨hleft, hc⟩
  | next _ ht hn _ ih =>
    cases Operators.trailing_types ht
    obtain ⟨hk, hk', rfl, rfl⟩ := Parser.arrayType_eq_ok.1 hn
    obtain ⟨ht₁, hc₁⟩ := hc.take hk (by simp)
    obtain ⟨ht₂, hc₂⟩ := hc₁.take hk' (by simp)
    apply ih hc₂
    rw [ht₁, ht₂] at hleft
    rw [Parser.shape_nodeTo rfl]
    exact .array hleft hk hk'

theorem type_sound (hc : c.Ended) (h : p.operand solve .types .default c = .ok node c') :
    (Goal.type .default).Reads c node c' ∧ c'.Ended := by
  obtain ⟨l, hl, first, c₁, hf, h⟩ := Parser.operand_eq_ok.1 h
  cases Operators.leading_types hl
  obtain ⟨hk, rfl, rfl⟩ := Parser.namedType_eq_ok.1 hf
  obtain ⟨ht, hc₁⟩ := hc.take hk (by simp)
  apply continues_types_sound hc₁ _ (Parser.continues_of_extend h)
  rw [ht, Parser.shape_leaf rfl]
  exact .name hk

/-! ## Statements -/

theorem param_sound (hs : Sound solve) (hc : c.Ended) (h : p.param solve c = .ok node c') :
    DerivesStmt .parameter c.terminals c'.terminals [node.shape] ∧ c'.Ended := by
  obtain ⟨hk, hk', type, c₁, ht, rfl, rfl⟩ := Parser.param_eq_ok.1 h
  obtain ⟨ht₁, hc₁⟩ := hc.take hk (by simp)
  obtain ⟨ht₂, hc₂⟩ := hc₁.take hk' (by simp)
  obtain ⟨hd, hc'⟩ := hs (.type .default) (by decide) hc₂ ht
  refine ⟨?_, hc'⟩
  rw [ht₁, ht₂, Parser.shape_nodeTo rfl, Node.shapes_cons, Parser.shape_leaf rfl]
  exact .parameter hk hk' hd

theorem params_sound (hs : Sound solve) (hc : c.Ended) (h : p.params solve c = .ok node c') :
    ∃ o ts close ps, c.terminals = o :: ts ∧ o.kind = .openParen ∧ close.kind = .closeParen ∧
      DerivesStmt .parameterList ts (close :: c'.terminals) ps ∧
      node.shape = .branch .params ps ∧ c'.Ended := by
  obtain ⟨hk, h⟩ := Parser.params_eq_ok.1 h
  obtain ⟨ht, hc₁⟩ := hc.take hk (by simp)
  rcases h with ⟨hk', rfl, rfl⟩ | ⟨-, items, c₁, hi, hk', rfl, rfl⟩
  · obtain ⟨ht', hc'⟩ := hc₁.take hk' (by simp)
    rw [ht'] at ht
    exact ⟨_, _, c.next.current.terminal, [], ht, hk, hk', .noParameters,
      Parser.shape_nodeTo rfl .., hc'⟩
  · obtain ⟨hd, hc₂⟩ := separated_sound (L := DerivesStmt .parameters)
      (I := fun ts rest s => DerivesStmt .parameter ts rest [s]) .one .more (param_sound hs) hc₁
      (Parser.readsSeparated_of_commaSeparated hi)
    obtain ⟨ht', hc'⟩ := hc₂.take hk' (by simp)
    rw [ht'] at hd
    exact ⟨_, _, c₁.current.terminal, _, ht, hk, hk', .someParameters hd,
      Parser.shape_nodeTo rfl .., hc'⟩

theorem statements_sound (hs : Sound solve) {close : TokenKind} {nodes : List Node} (hc : c.Ended)
    (h : Parser.ReadsUntil close (solve .stmt) c nodes c') :
    DerivesStmt .statements c.terminals c'.terminals (Node.shapes nodes) ∧ c'.Ended := by
  induction h with
  | done => exact ⟨.nil, hc⟩
  | next hn _ ih =>
    obtain ⟨hd, hc₁⟩ := hs .stmt (by decide) hc hn
    obtain ⟨hds, hc'⟩ := ih hc₁
    exact ⟨.cons hd hds, hc'⟩

theorem block_sound (hs : Sound solve) (hc : c.Ended) (h : p.block solve c = .ok node c') :
    DerivesStmt .block c.terminals c'.terminals [node.shape] ∧ c'.Ended := by
  obtain ⟨hk, statements, c₁, hb, hk', rfl, rfl⟩ := Parser.block_eq_ok.1 h
  obtain ⟨ht, hc₁⟩ := hc.take hk (by simp)
  obtain ⟨hd, hc₂⟩ := statements_sound hs hc₁ (Parser.readsUntil_of_untilClosed hb)
  obtain ⟨ht', hc'⟩ := hc₂.take hk' (by simp)
  rw [ht'] at hd
  refine ⟨?_, hc'⟩
  rw [ht, Parser.shape_nodeTo rfl]
  exact .block hk hd hk'

/-- A statement that a reserved word begins. -/
theorem keyword_sound (hs : Sound solve) {l : Leading} (hc : c.Ended)
    (hl : Grammar.standard.statement c.kind = some l) (h : p.leading solve l c = .ok node c') :
    DerivesStmt .statement c.terminals c'.terminals [node.shape] ∧ c'.Ended := by
  generalize hk : c.kind = k at hl
  cases k <;> cases hl
  case letWord =>
    obtain ⟨hk₁, hk₂, initializer, c₁, hi, hk₃, rfl, rfl⟩ := Parser.declaration_eq_ok.1 h
    obtain ⟨ht, hc₀⟩ := hc.take hk (by simp)
    obtain ⟨ht₁, hc₁⟩ := hc₀.take hk₁ (by simp)
    obtain ⟨ht₂, hc₂⟩ := hc₁.take hk₂ (by simp)
    obtain ⟨⟨hd, -⟩, hc₃⟩ := hs (.expr .default) (by decide) hc₂ hi
    obtain ⟨ht₃, hc'⟩ := hc₃.take hk₃ (by simp)
    refine ⟨?_, hc'⟩
    rw [ht₃] at hd
    rw [ht, ht₁, ht₂, Parser.shape_nodeTo rfl, Node.shapes_cons, Parser.shape_leaf rfl]
    exact .declaration hk hk₁ hk₂ hd hk₃
  case printWord =>
    obtain ⟨hk₁, argument, c₁, ha, hk₂, hk₃, rfl, rfl⟩ := Parser.print_eq_ok.1 h
    obtain ⟨ht, hc₀⟩ := hc.take hk (by simp)
    obtain ⟨ht₁, hc₁⟩ := hc₀.take hk₁ (by simp)
    obtain ⟨⟨hd, -⟩, hc₂⟩ := hs (.expr .default) (by decide) hc₁ ha
    obtain ⟨ht₂, hc₃⟩ := hc₂.take hk₂ (by simp)
    obtain ⟨ht₃, hc'⟩ := hc₃.take hk₃ (by simp)
    refine ⟨?_, hc'⟩
    rw [ht₂, ht₃] at hd
    rw [ht, ht₁, Parser.shape_nodeTo rfl]
    exact .print hk hk₁ hd hk₂ hk₃
  case whileWord =>
    obtain ⟨test, c₁, ht, hk₁, body, c₂, hb, rfl, rfl⟩ := Parser.loop_eq_ok.1 h
    obtain ⟨ht₀, hc₀⟩ := hc.take hk (by simp)
    obtain ⟨⟨hd, -⟩, hc₁⟩ := hs (.expr .default) (by decide) hc₀ ht
    obtain ⟨ht₁, hc₂⟩ := hc₁.take hk₁ (by simp)
    obtain ⟨hdb, hc'⟩ := block_sound hs hc₂ hb
    refine ⟨?_, hc'⟩
    rw [ht₁] at hd
    rw [ht₀, Parser.shape_nodeTo rfl]
    exact .loop hk hd hk₁ hdb
  case returnWord =>
    obtain ⟨ht₀, hc₀⟩ := hc.take hk (by simp)
    rw [ht₀]
    rcases Parser.result_eq_ok.1 h with ⟨hk₁, rfl, rfl⟩ | ⟨-, value, c₁, hv, hk₁, rfl, rfl⟩
    · obtain ⟨ht₁, hc'⟩ := hc₀.take hk₁ (by simp)
      refine ⟨?_, hc'⟩
      rw [ht₁, Parser.shape_nodeTo rfl]
      exact .result hk hk₁
    · obtain ⟨⟨hd, -⟩, hc₁⟩ := hs (.expr .default) (by decide) hc₀ hv
      obtain ⟨ht₁, hc'⟩ := hc₁.take hk₁ (by simp)
      refine ⟨?_, hc'⟩
      rw [ht₁] at hd
      rw [Parser.shape_nodeTo rfl]
      exact .resultOf hk hd hk₁
  case funWord =>
    obtain ⟨hk₁, params, c₁, hps, type, c₂, htype, hk₂, body, c₃, hb, rfl, rfl⟩ :=
      Parser.function_eq_ok.1 h
    obtain ⟨ht₀, hc₀⟩ := hc.take hk (by simp)
    obtain ⟨ht₁, hc₁⟩ := hc₀.take hk₁ (by simp)
    obtain ⟨o, ts, close, ps, hts, ho, hclose, hdps, hshape, hc₂⟩ := params_sound hs hc₁ hps
    have hret : DerivesStmt .returnType c₁.terminals c₂.terminals (Node.shapes type) ∧
        c₂.Ended := by
      rcases htype with ⟨ha, t, c₃, ht, rfl, rfl⟩ | ⟨-, rfl, rfl⟩
      · obtain ⟨hta, hca⟩ := hc₂.take ha (by simp)
        obtain ⟨hd, hc₃⟩ := hs (.type .default) (by decide) hca ht
        exact ⟨hta ▸ .someType ha hd, hc₃⟩
      · exact ⟨.noType, hc₂⟩
    obtain ⟨hdt, hc₃⟩ := hret
    obtain ⟨ht₃, hc₄⟩ := hc₃.take hk₂ (by simp)
    obtain ⟨hdb, hc'⟩ := block_sound hs hc₄ hb
    refine ⟨?_, hc'⟩
    rw [ht₃] at hdt
    rw [ht₀, ht₁, hts, Parser.shape_nodeTo rfl, List.cons_append, List.cons_append,
      Node.shapes_cons, Node.shapes_cons, Node.shapes_append, Parser.shape_leaf rfl, hshape]
    exact .function hk hk₁ ho hdps hclose hdt hk₂ hdb

/-- An assignment or a call, by what follows the expression. -/
theorem simpleStatement_sound (hs : Sound solve) (hc : c.Ended)
    (h : p.simpleStatement solve c = .ok node c') :
    DerivesStmt .statement c.terminals c'.terminals [node.shape] ∧ c'.Ended := by
  obtain ⟨expr, c₁, he, h⟩ := Parser.simpleStatement_eq_ok.1 h
  obtain ⟨⟨hd, -⟩, hc₁⟩ := hs (.expr .default) (by decide) hc he
  rcases h with ⟨hk, htarget, source, c₂, hsource, hk', rfl, rfl⟩ | ⟨-, hcall, hk, rfl, rfl⟩
  · obtain ⟨ht₁, hc₂⟩ := hc₁.take hk (by simp)
    obtain ⟨⟨hd', -⟩, hc₃⟩ := hs (.expr .default) (by decide) hc₂ hsource
    obtain ⟨ht₂, hc'⟩ := hc₃.take hk' (by simp)
    refine ⟨?_, hc'⟩
    rw [ht₁] at hd
    rw [ht₂] at hd'
    rw [Parser.shape_nodeTo rfl]
    exact .assignment hd (by simpa using htarget) hk hd' hk'
  · obtain ⟨ht₁, hc'⟩ := hc₁.take hk (by simp)
    refine ⟨?_, hc'⟩
    rw [ht₁] at hd
    rw [Parser.shape_nodeTo rfl]
    exact .call hd (by simpa using hcall) hk

end

/-! ## All goals -/

namespace Parser

/-- One level of the parser reads by the grammar if the levels below do. -/
theorem step_sound {p : Parser} (hp : p.grammar = .standard) {solve : Goal → ParseM Node}
    (hs : Sound solve) : Sound (p.step solve) := by
  intro goal hg c n c' hc h
  cases goal with
  | expr power =>
    rw [step, hp] at h
    exact operand_sound hs hc h
  | type power =>
    cases hg
    rw [step, hp] at h
    exact type_sound hc h
  | stmt =>
    rcases statement_eq_ok.1 h with ⟨l, hl, h⟩ | ⟨-, h⟩
    · exact keyword_sound hs hc (hp ▸ hl) h
    · exact simpleStatement_sound hs hc h

/-- The parser reads by the grammar, at every depth. -/
theorem run_sound {p : Parser} (hp : p.grammar = .standard) (n : Nat) : Sound (p.run n) := by
  induction n with
  | zero =>
    intro goal _ c n c' _ h
    simp [run, tooDeep_apply] at h
  | succ n ih => exact step_sound hp ih

end Parser

end Scriptlet
