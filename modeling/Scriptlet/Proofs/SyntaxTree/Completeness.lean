import Scriptlet.Proofs.SyntaxTree.Soundness

/-!
Derivations are readings: the parser reads whatever derives from the symbol of a goal, if no token
follows that would continue it, and as deep as there are terminals.

For the layers of expressions the statement is about the loop over trailing constructs: reading a
derivation from a layer comes to the point where its tree stands to the left of the rest, whatever
the loop goes on to do there.
-/

namespace Scriptlet

open ParseM

/-! ## First terminals and lengths -/

theorem DerivesType.length_lt (h : DerivesType ts rest s) : rest.length < ts.length := by
  induction h with
  | name => simp
  | array _ _ _ ih => simp only [List.length_cons] at ih; omega

theorem DerivesType.suffix (h : DerivesType ts rest s) : rest <:+ ts := by
  induction h <;> grind [List.suffix_cons, List.IsSuffix.trans]

/-- A derivation leaves an end of its terminals. -/
theorem DerivesExpr.suffix (h : DerivesExpr s ts rest ss) : rest <:+ ts := by
  induction h <;> grind [List.suffix_cons, List.IsSuffix.trans, List.suffix_refl]

/-- Everything but an empty list takes a terminal. -/
theorem DerivesExpr.length_le (h : DerivesExpr s ts rest ss) :
    rest.length + (if s = .arguments then 0 else 1) ≤ ts.length := by
  induction h <;> simp_all <;> omega

theorem DerivesExpr.length_lt (h : DerivesExpr s ts rest ss) (hs : s ≠ .arguments) :
    rest.length < ts.length := by
  have := h.length_le
  rw [if_neg hs] at this
  omega

/-- An expression starts with a terminal that begins one. -/
theorem DerivesExpr.leading_head (h : DerivesExpr s ts rest ss) (hs : s ≠ .arguments) :
    ∃ t us, ts = t :: us ∧ ∃ l, Operators.expressions.leading t.kind = some l := by
  induction h with
  | sign hk => rcases hk with hk | hk <;> exact ⟨_, _, rfl, by rw [hk]; exact ⟨_, rfl⟩⟩
  | @atom _ x _ hk =>
    refine ⟨_, _, rfl, ?_⟩
    generalize x.kind = k at hk
    cases k <;> cases hk <;> exact ⟨_, rfl⟩
  | group hk | array hk => exact ⟨_, _, rfl, by rw [hk]; exact ⟨_, rfl⟩⟩
  | noArguments | someArguments => exact (hs rfl).elim
  | _ => simp_all

theorem Cursor.kind_of_terminals {c : Cursor} (h : c.terminals = t :: ts) : c.kind = t.kind := by
  cases h
  rfl

/-! ## What it is to read a derivation -/

namespace Parser

/-- Reading at a power that suits the layer comes to the rest with the tree to its left. -/
def CompletesLayer (p : Parser) (s : ExprSymbol) (ts rest : List Terminal) (ss : List Shape) :
    Prop :=
  ∀ ⦃power n c t us⦄, power.operandSymbol.layer ≤ s.layer → ¬Power.unary < power →
    c.terminals = ts → rest = t :: us →
    (Operators.expressions.power t.kind).leftSymbol.layer ≤ s.layer →
    ts.length ≤ n + 1 + rest.length →
    ∃ node c' k, ss = [node.shape] ∧ c'.terminals = rest ∧ c'.remaining ≤ k ∧
      ∀ {last c''}, p.extend (p.run n) .expressions power k node c' = .ok last c'' →
        p.operand (p.run n) .expressions power c = .ok last c''

/-- Reading expressions with commas between them comes to the rest. -/
def CompletesList (p : Parser) (ts rest : List Terminal) (ss : List Shape) : Prop :=
  ∀ ⦃n k c t us⦄, c.terminals = ts → rest = t :: us →
    Operators.expressions.power t.kind = .default → t.kind ≠ .comma →
    ts.length ≤ n + rest.length → ts.length ≤ k + rest.length →
    ∃ nodes c', commaSeparated (p.run n (.expr .default)) k c = .ok nodes c' ∧
      c'.terminals = rest ∧ Node.shapes nodes = ss

def Completes (p : Parser) : ExprSymbol → List Terminal → List Terminal → List Shape → Prop
  | .exprs => p.CompletesList
  | .arguments => fun ts rest ss => ts = rest ∧ ss = [] ∨ p.CompletesList ts rest ss
  | s => p.CompletesLayer s

variable {p : Parser} (hp : p.grammar = .standard)
include hp

/-- A layer is read as the operand that its power asks for, if no tighter operator follows. -/
theorem CompletesLayer.run {q : Power} (h : p.CompletesLayer q.operandSymbol ts rest [r])
    (hu : ¬Power.unary < q) (hlt : rest.length < ts.length) {n : Nat} {c : Cursor}
    (hc : c.terminals = ts) (hrest : rest = t :: us)
    (hq : ¬q < Operators.expressions.power t.kind) (hn : ts.length ≤ n + rest.length) :
    ∃ node c', p.run n (.expr q) c = .ok node c' ∧ c'.terminals = rest ∧ node.shape = r := by
  obtain ⟨m, rfl⟩ : ∃ m, n = m + 1 := ⟨n - 1, by omega⟩
  have hfollow : (Operators.expressions.power t.kind).leftSymbol.layer ≤ q.operandSymbol.layer :=
    Nat.le_trans (Power.leftSymbol_layer_mono hq) (Power.leftSymbol_layer_le_operandSymbol hu)
  obtain ⟨node, c', k, hr, hc', hk, hread⟩ := h (Nat.le_refl _) hu hc hrest hfollow hn
  obtain ⟨j, rfl⟩ : ∃ j, k = j + 1 := ⟨k - 1, by rw [Cursor.remaining] at hk; omega⟩
  refine ⟨node, c', ?_, hc', (List.singleton_inj.1 hr).symm⟩
  rw [Parser.run, step, hp]
  apply hread
  rw [hrest] at hc'
  exact extend_succ_eq_ok.2 (.inr ⟨by rwa [Cursor.kind_of_terminals hc'], rfl, rfl⟩)

/-- A whole expression, before a token that is no operator. -/
theorem CompletesLayer.run_expr (h : p.CompletesLayer .expr ts rest [r])
    (hlt : rest.length < ts.length) {n : Nat} {c : Cursor} (hc : c.terminals = ts)
    (hrest : rest = t :: us) (ht : Operators.expressions.power t.kind = .default)
    (hn : ts.length ≤ n + rest.length) :
    ∃ node c', p.run n (.expr .default) c = .ok node c' ∧ c'.terminals = rest ∧ node.shape = r :=
  CompletesLayer.run (q := .default) hp h (by decide) hlt hc hrest (by rw [ht]; decide) hn

omit hp in
/-- What is read as an operand of a layer is read as one of a looser layer. -/
theorem CompletesLayer.loosen {s s' : ExprSymbol} (h : p.CompletesLayer s ts rest ss)
    (hle : s'.layer ≤ s.layer) : p.CompletesLayer s' ts rest ss :=
  fun _ _ _ _ _ hpower hu hc hrest hfollow hn =>
    h (Nat.le_trans hpower hle) hu hc hrest (Nat.le_trans hfollow hle) hn

omit hp in
/-- A construct that begins an expression. -/
theorem CompletesLayer.leading {s : ExprSymbol} {l : Leading}
    (hl : Operators.expressions.leading x.kind = some l)
    (hread : ∀ {n c t us}, c.terminals = x :: ts → rest = t :: us →
      (Operators.expressions.power t.kind).leftSymbol.layer ≤ s.layer →
        ts.length ≤ n + rest.length →
      ∃ node c', p.leading (p.run n) l c = .ok node c' ∧ c'.terminals = rest ∧ node.shape = r) :
    p.CompletesLayer s (x :: ts) rest [r] := by
  intro power n c t us _ _ hc hrest hfollow hn
  obtain ⟨node, c', h, hc', hr⟩ := hread (n := n) hc hrest hfollow (by
    rw [List.length_cons] at hn; omega)
  refine ⟨node, c', c'.remaining, by rw [hr], hc', Nat.le_refl _, fun hlast => ?_⟩
  rw [← Cursor.kind_of_terminals hc] at hl
  exact operand_eq_ok.2 ⟨l, hl, node, c', h, hlast⟩

omit hp in
/-- A construct that continues the tree to its left. -/
theorem CompletesLayer.trailing {s s' : ExprSymbol} {t : Trailing}
    (h : p.CompletesLayer s ts (o :: us) [l]) (ht : Operators.expressions.trailing o.kind = some t)
    (hleft : (Operators.expressions.power o.kind).leftSymbol.layer ≤ s.layer)
    (hpower : ∀ {power : Power}, power.operandSymbol.layer ≤ s'.layer → ¬Power.unary < power →
      power.operandSymbol.layer ≤ s.layer ∧ power < Operators.expressions.power o.kind)
    (hrest : rest.length ≤ us.length) (hts : us.length + 1 < ts.length)
    (hread : ∀ {n left c v vs}, left.shape = l → c.terminals = o :: us → rest = v :: vs →
      (Operators.expressions.power v.kind).leftSymbol.layer ≤ s'.layer →
        us.length < n + rest.length →
      ∃ node c', p.trailing (p.run n) left (Operators.expressions.power o.kind) t c = .ok node c' ∧
        c'.terminals = rest ∧ node.shape = r) :
    p.CompletesLayer s' ts rest [r] := by
  intro power n c v vs hp hu hc hv hfollow hn
  obtain ⟨hps, hpo⟩ := hpower hp hu
  obtain ⟨left, c₁, k, hl, hc₁, hk, hlast₁⟩ := h (n := n) hps hu hc rfl hleft (by
    rw [List.length_cons]; omega)
  obtain ⟨node, c', h', hc', hr⟩ := hread (n := n) (List.singleton_inj.1 hl).symm hc₁ hv hfollow
    (by omega)
  have hrem : c'.remaining < c₁.remaining := by
    rw [← Cursor.length_terminals, ← Cursor.length_terminals, hc', hc₁, List.length_cons]
    omega
  obtain ⟨j, rfl⟩ : ∃ j, k = j + 1 := ⟨k - 1, by omega⟩
  refine ⟨node, c', j, by rw [hr], hc', by omega, fun hlast => hlast₁ ?_⟩
  rw [← Cursor.kind_of_terminals hc₁] at hpo ht h'
  exact extend_succ_eq_ok.2 (.inl ⟨hpo, t, ht, node, c', h', hlast⟩)

/-- An operation whose right operand is read at `q`. -/
theorem binary_complete {q : Power} (h : p.CompletesLayer q.operandSymbol us rest [r])
    (hu : ¬Power.unary < q) (hlt : rest.length < us.length) {n : Nat} {left : Node} {c : Cursor}
    (hc : c.terminals = o :: us) (hrest : rest = t :: vs)
    (hq : ¬q < Operators.expressions.power t.kind) (hn : us.length ≤ n + rest.length) :
    ∃ node c', p.binary (p.run n) left q c = .ok node c' ∧ c'.terminals = rest ∧
      node.shape = .operation left.shape o r := by
  obtain ⟨v, us', rfl⟩ := List.exists_cons_of_length_pos (Nat.zero_lt_of_lt hlt)
  obtain ⟨-, hvalue, hnext⟩ := Cursor.next_terminals hc
  obtain ⟨right, c', hread, hc', rfl⟩ := h.run hp hu hlt hnext hrest hq hn
  refine ⟨_, c', binary_eq_ok.2 ⟨right, c', hread, rfl, rfl⟩, hc', ?_⟩
  rw [shape_nodeTo rfl, Node.shapes_cons, Node.shapes_cons, shape_leaf rfl, hvalue]
  rfl

/-! ## Lists -/

theorem CompletesList.one (hd : DerivesExpr .expr ts rest [e])
    (h : p.CompletesLayer .expr ts rest [e]) :
    p.CompletesList ts rest [e] := by
  intro n k c t us hc hrest ht hcomma hn hk
  have hlt := hd.length_lt (by decide)
  obtain ⟨j, rfl⟩ : ∃ j, k = j + 1 := ⟨k - 1, by omega⟩
  obtain ⟨node, c', hread, hc', rfl⟩ := h.run_expr hp hlt hc hrest ht hn
  have hkind : c'.kind ≠ .comma := by rwa [Cursor.kind_of_terminals (hc'.trans hrest)]
  exact ⟨[node], c', commaSeparated_succ_eq_ok.2 ⟨node, c', hread, .inr ⟨hkind, rfl, rfl⟩⟩, hc',
    rfl⟩

/-- An item, a comma and the items after it. -/
theorem CompletesList.more (hd : DerivesExpr .expr ts (x :: us) [e]) (hx : x.kind = .comma)
    (hds : DerivesExpr .exprs us rest es) (h : p.CompletesLayer .expr ts (x :: us) [e])
    (hs : p.CompletesList us rest es) : p.CompletesList ts rest (e :: es) := by
  intro n k c t vs hc hrest ht hcomma hn hk
  have hlt := hd.length_lt (by decide)
  have hlts := hds.length_lt (by decide)
  rw [List.length_cons] at hlt
  obtain ⟨j, rfl⟩ : ∃ j, k = j + 1 := ⟨k - 1, by omega⟩
  obtain ⟨v, us', rfl⟩ := List.exists_cons_of_length_pos (Nat.zero_lt_of_lt hlts)
  obtain ⟨node, c₁, hread, hc₁, rfl⟩ := h.run_expr hp hlt hc rfl (by rw [hx]; rfl) (n := n) (by
    rw [List.length_cons]; omega)
  obtain ⟨hkind, -, hnext⟩ := Cursor.next_terminals hc₁
  obtain ⟨nodes, c', hreads, hc', rfl⟩ := hs (n := n) (k := j) hnext hrest ht hcomma (by omega)
    (by omega)
  exact ⟨node :: nodes, c', commaSeparated_succ_eq_ok.2
    ⟨node, c₁, hread, .inl ⟨hkind.trans hx, nodes, c', hreads, rfl, rfl⟩⟩, hc', rfl⟩

omit hp in
/-- Arguments up to their closing token. -/
theorem exprList_complete {close : TokenKind} (hclose : close = .closeParen ∨ close = .closeBracket)
    (hd : DerivesExpr .arguments ts (x :: v :: vs) ss)
    (h : p.Completes .arguments ts (x :: v :: vs) ss) (hx : x.kind = close) {n : Nat} {c : Cursor}
    (hc : c.terminals = ts) (hn : ts.length ≤ n + (v :: vs).length + 1) :
    ∃ nodes c', exprList (p.run n) close c = .ok nodes c' ∧ c'.terminals = v :: vs ∧
      Node.shapes nodes = ss := by
  cases hd with
  | noArguments =>
    obtain ⟨hkind, -, hnext⟩ := Cursor.next_terminals hc
    exact ⟨[], c.next, exprList_eq_ok.2 (.inl ⟨hkind.trans hx, rfl, rfl⟩), hnext, rfl⟩
  | someArguments hd =>
    obtain ⟨t, us, rfl, l, hl⟩ := hd.leading_head (by decide)
    have hlt := hd.length_lt (by decide)
    have hopen : c.kind ≠ close := by
      rw [Cursor.kind_of_terminals hc]
      rintro rfl
      rcases hclose with hk | hk <;> rw [hk] at hl <;> cases hl
    rcases h with ⟨hts, -⟩ | h
    · simp [hts] at hlt
    · obtain ⟨nodes, c₁, hread, hc₁, hs⟩ := h (n := n) (k := c.remaining) hc rfl
        (by rw [hx]; rcases hclose with rfl | rfl <;> rfl)
        (by rw [hx]; rcases hclose with rfl | rfl <;> decide) hn
        (by rw [← Cursor.length_terminals, hc]; omega)
      obtain ⟨hkind, -, hnext⟩ := Cursor.next_terminals hc₁
      exact ⟨nodes, c₁.next, exprList_eq_ok.2
        (.inr ⟨hopen, nodes, c₁, hread, hkind.trans hx, rfl, rfl⟩), hnext, hs⟩

/-! ## Operators -/

/-- A comparison stands between two sums. -/
theorem CompletesLayer.comparison (hd : DerivesExpr .additive ts (o :: us) [l])
    (hk : o.kind.isRelational = true) (hd' : DerivesExpr .additive us rest [r])
    (h : p.CompletesLayer .additive ts (o :: us) [l])
    (h' : p.CompletesLayer .additive us rest [r]) :
    p.CompletesLayer .expr ts rest [.operation l o r] := by
  obtain ⟨ht, hpower⟩ := Operators.expressions_relational hk
  have hlt := hd.length_lt (by decide)
  have hlt' := hd'.length_lt (by decide)
  refine h.trailing ht (by rw [hpower]; decide) ?_ (Nat.le_of_lt hlt') hlt ?_
  · rw [hpower]
    intro power
    cases power <;> decide
  · rintro n left c v vs rfl hc hv hfollow hn
    have hdefault : Operators.expressions.power v.kind = .default := by
      revert hfollow
      cases Operators.expressions.power v.kind <;> decide
    obtain ⟨node, c', hb, hc', hshape⟩ := binary_complete (q := .relational) hp h'
      (by decide) hlt' hc hv (by rw [hdefault]; decide) (Nat.le_of_lt hn) (n := n)
    refine ⟨node, c', ?_, hc', hshape⟩
    rw [hpower]
    refine comparison_eq_ok.2 ⟨hb, ?_⟩
    rw [Cursor.kind_of_terminals (hc'.trans hv)]
    exact Operators.isRelational_of_default hdefault

/-- An operation that binds with the power `b`. Its left operand is of the layer `s`, its right one
is read at `q`, and nothing that may follow the layer `s'` would continue the right one. -/
theorem CompletesLayer.operation {s s' : ExprSymbol} {b q : Power} {t : Trailing}
    (hd : DerivesExpr s ts (o :: us) [l]) (hd' : DerivesExpr q.operandSymbol us rest [r])
    (h : p.CompletesLayer s ts (o :: us) [l]) (h' : p.CompletesLayer q.operandSymbol us rest [r])
    (ht : Operators.expressions.trailing o.kind = some t)
    (hb : Operators.expressions.power o.kind = b)
    (hbinary : ∀ n left, p.trailing (p.run n) left b t = p.binary (p.run n) left q)
    (hs : s ≠ .arguments) (hu : ¬Power.unary < q) (hleft : b.leftSymbol.layer ≤ s.layer)
    (hpower : ∀ {power : Power}, power.operandSymbol.layer ≤ s'.layer → ¬Power.unary < power →
      power.operandSymbol.layer ≤ s.layer ∧ power < b)
    (hfollow : ∀ {power : Power}, power.leftSymbol.layer ≤ s'.layer → ¬q < power) :
    p.CompletesLayer s' ts rest [.operation l o r] := by
  subst hb
  have hlt := hd.length_lt hs
  have hlt' := hd'.length_lt (by cases q <;> decide)
  refine h.trailing ht hleft hpower (Nat.le_of_lt hlt') hlt ?_
  rintro n left c v vs rfl hc hv hv' hn
  rw [hbinary]
  exact binary_complete hp h' hu hlt' hc hv (hfollow hv') (Nat.le_of_lt hn)

theorem CompletesLayer.sum (hd : DerivesExpr .additive ts (o :: us) [l])
    (hk : o.kind = .plus ∨ o.kind = .dash) (hd' : DerivesExpr .multiplicative us rest [r])
    (h : p.CompletesLayer .additive ts (o :: us) [l])
    (h' : p.CompletesLayer .multiplicative us rest [r]) :
    p.CompletesLayer .additive ts rest [.operation l o r] := by
  obtain ⟨ht, hb⟩ := Operators.expressions_sum hk
  refine operation (q := .additive) hp hd hd' h h' ht hb (fun _ _ => rfl) (by decide) (by decide)
    (by decide) ?_ ?_
  all_goals
    intro power
    cases power <;> decide

theorem CompletesLayer.product (hd : DerivesExpr .multiplicative ts (o :: us) [l])
    (hk : o.kind = .star ∨ o.kind = .slash ∨ o.kind = .percent)
    (hd' : DerivesExpr .unary us rest [r]) (h : p.CompletesLayer .multiplicative ts (o :: us) [l])
    (h' : p.CompletesLayer .unary us rest [r]) :
    p.CompletesLayer .multiplicative ts rest [.operation l o r] := by
  obtain ⟨ht, hb⟩ := Operators.expressions_product hk
  refine operation (q := .multiplicative) hp hd hd' h h' ht hb (fun _ _ => rfl) (by decide)
    (by decide) (by decide) ?_ ?_
  all_goals
    intro power
    cases power <;> decide

/-- The right operand of a power may be signed. -/
theorem CompletesLayer.power (hd : DerivesExpr .suffixed ts (o :: us) [l]) (hk : o.kind = .starStar)
    (hd' : DerivesExpr .unary us rest [r]) (h : p.CompletesLayer .suffixed ts (o :: us) [l])
    (h' : p.CompletesLayer .unary us rest [r]) :
    p.CompletesLayer .power ts rest [.operation l o r] := by
  refine operation (q := .unary) (b := .exponential) (t := .exponent) hp hd hd' h h'
    (by rw [hk]; rfl) (by rw [hk]; rfl) (fun _ _ => rfl) (by decide) (by decide) (by decide) ?_ ?_
  all_goals
    intro power
    cases power <;> decide

theorem CompletesLayer.subscript (hd : DerivesExpr .suffixed ts (o :: us) [b])
    (hk : o.kind = .openBracket) (hd' : DerivesExpr .expr us (x :: rest) [i])
    (hx : x.kind = .closeBracket) (h : p.CompletesLayer .suffixed ts (o :: us) [b])
    (h' : p.CompletesLayer .expr us (x :: rest) [i]) :
    p.CompletesLayer .suffixed ts rest [.branch .subscript [b, i]] := by
  have hlt := hd.length_lt (by decide)
  have hlt' := hd'.length_lt (by decide)
  obtain ⟨u, us, rfl⟩ := List.exists_cons_of_length_pos (Nat.zero_lt_of_lt hlt')
  rw [List.length_cons] at hlt'
  refine h.trailing (t := .subscript) (by rw [hk]; rfl) (by rw [hk]; decide) ?_ (by omega) hlt ?_
  · rw [hk]
    intro power
    cases power <;> decide
  · rintro n left c v vs rfl hc rfl - hn
    obtain ⟨-, -, hnext⟩ := Cursor.next_terminals hc
    obtain ⟨index, c₁, hread, hc₁, rfl⟩ := h'.run_expr hp (by simpa using hlt') hnext rfl
      (by rw [hx]; rfl) (n := n) (by simp only [List.length_cons] at hn ⊢; omega)
    obtain ⟨hkind, -, hnext'⟩ := Cursor.next_terminals hc₁
    refine ⟨_, c₁.next, subscript_eq_ok.2 ⟨index, c₁, hread, hkind.trans hx, rfl, rfl⟩, hnext', ?_⟩
    rw [shape_nodeTo rfl]
    rfl

omit hp in
/-- Only a name is called, with a bracket right after it. -/
theorem CompletesLayer.call (hd : DerivesExpr .suffixed ts (o :: us) [f]) (hf : f.rule = .id)
    (hk : o.kind = .openParen) (hd' : DerivesExpr .arguments us (x :: rest) args)
    (hx : x.kind = .closeParen) (h : p.CompletesLayer .suffixed ts (o :: us) [f])
    (h' : p.Completes .arguments us (x :: rest) args) :
    p.CompletesLayer .suffixed ts rest [.branch .call (f :: args)] := by
  have hlt := hd.length_lt (by decide)
  have hlt' := hd'.length_le
  obtain ⟨u, us, rfl⟩ := List.exists_cons_of_length_pos
    (Nat.lt_of_lt_of_le (Nat.zero_lt_succ _) hlt')
  rw [List.length_cons] at hlt'
  refine h.trailing (t := .call) (by rw [hk]; rfl) (by rw [hk]; decide) ?_ (by omega) hlt ?_
  · rw [hk]
    intro power
    cases power <;> decide
  · rintro n left c v vs rfl hc rfl - hn
    obtain ⟨-, -, hnext⟩ := Cursor.next_terminals hc
    obtain ⟨nodes, c', hread, hc', rfl⟩ := exprList_complete (.inl rfl) hd' h' hx hnext (n := n)
      (by omega)
    refine ⟨_, c', call_eq_ok.2 ⟨by simpa using hf, nodes, c', hread, rfl, rfl⟩, hc', ?_⟩
    rw [shape_nodeTo rfl]
    rfl

/-! ## Constructs that begin an expression -/

omit hp in
theorem CompletesLayer.atom (hk : x.kind.atomRule? = some rule) :
    p.CompletesLayer .primary (x :: rest) rest [.leaf rule x.value] := by
  have hl : Operators.expressions.leading x.kind = some .primary ∧ rule.isLeaf = true := by
    generalize x.kind = k at hk
    cases k <;> cases hk <;> exact ⟨rfl, rfl⟩
  refine .leading hl.1 ?_
  rintro n c t us hc rfl - -
  obtain ⟨hkind, hvalue, hnext⟩ := Cursor.next_terminals hc
  refine ⟨_, c.next, primary_eq_ok.2 ⟨rule, hkind ▸ hk, rfl, rfl⟩, hnext, ?_⟩
  rw [shape_leaf hl.2, hvalue]

/-- A sign takes the operand after it with the power of signs. -/
theorem CompletesLayer.sign (hk : o.kind = .dash ∨ o.kind = .bang)
    (hd : DerivesExpr .unary ts rest [e]) (h : p.CompletesLayer .unary ts rest [e]) :
    p.CompletesLayer .unary (o :: ts) rest [.branch .unary [.leaf .op o.value, e]] := by
  have hlt := hd.length_lt (by decide)
  refine .leading (l := .unary) (by rcases hk with hk | hk <;> rw [hk] <;> rfl) ?_
  rintro n c t us hc hrest hfollow hn
  obtain ⟨v, vs, rfl⟩ := List.exists_cons_of_length_pos (Nat.zero_lt_of_lt hlt)
  obtain ⟨-, hvalue, hnext⟩ := Cursor.next_terminals hc
  have hq : ¬Power.unary < Operators.expressions.power t.kind := by
    revert hfollow
    cases Operators.expressions.power t.kind <;> decide
  obtain ⟨operand, c', hread, hc', rfl⟩ := CompletesLayer.run (q := .unary) hp h
    (by decide) hlt hnext hrest hq hn
  refine ⟨_, c', unary_eq_ok.2 ⟨operand, c', hread, rfl, rfl⟩, hc', ?_⟩
  rw [shape_nodeTo rfl, Node.shapes_cons, shape_leaf rfl, hvalue]
  rfl

theorem CompletesLayer.group (hk : o.kind = .openParen) (hd : DerivesExpr .expr ts (x :: rest) [e])
    (hx : x.kind = .closeParen) (h : p.CompletesLayer .expr ts (x :: rest) [e]) :
    p.CompletesLayer .primary (o :: ts) rest [e] := by
  have hlt := hd.length_lt (by decide)
  refine .leading (l := .grouping) (by rw [hk]; rfl) ?_
  rintro n c t us hc rfl - hn
  obtain ⟨v, vs, rfl⟩ := List.exists_cons_of_length_pos (Nat.zero_lt_of_lt hlt)
  obtain ⟨-, -, hnext⟩ := Cursor.next_terminals hc
  obtain ⟨inner, c₁, hread, hc₁, rfl⟩ := h.run_expr hp hlt hnext rfl (by rw [hx]; rfl) (n := n) (by
    simp only [List.length_cons] at hn ⊢; omega)
  obtain ⟨hkind, -, hnext'⟩ := Cursor.next_terminals hc₁
  exact ⟨inner, c₁.next, grouping_eq_ok.2 ⟨inner, c₁, hread, hkind.trans hx, rfl, rfl⟩, hnext', rfl⟩

omit hp in
theorem CompletesLayer.array (hk : o.kind = .openBracket)
    (hd : DerivesExpr .arguments ts (x :: rest) es) (hx : x.kind = .closeBracket)
    (h : p.Completes .arguments ts (x :: rest) es) :
    p.CompletesLayer .primary (o :: ts) rest [.branch .arrayLit es] := by
  refine .leading (l := .array) (by rw [hk]; rfl) ?_
  rintro n c t us hc rfl - hn
  obtain ⟨v, vs, rfl⟩ := List.exists_cons_of_length_pos
    (Nat.lt_of_lt_of_le (Nat.zero_lt_succ _) hd.length_le)
  obtain ⟨-, -, hnext⟩ := Cursor.next_terminals hc
  obtain ⟨nodes, c', hread, hc', rfl⟩ := exprList_complete (.inr rfl) hd h hx hnext (n := n)
    (by omega)
  refine ⟨_, c', array_eq_ok.2 ⟨nodes, c', hread, rfl, rfl⟩, hc', ?_⟩
  rw [shape_nodeTo rfl]

/-- Every derivation of an expression can be read. -/
theorem completes (h : DerivesExpr s ts rest ss) : p.Completes s ts rest ss := by
  induction h with
  | ofAdditive _ ih => exact CompletesLayer.loosen (s := .additive) ih (by decide)
  | ofMultiplicative _ ih => exact CompletesLayer.loosen (s := .multiplicative) ih (by decide)
  | ofUnary _ ih => exact CompletesLayer.loosen (s := .unary) ih (by decide)
  | ofPower _ ih => exact CompletesLayer.loosen (s := .power) ih (by decide)
  | ofSuffixed _ ih => exact CompletesLayer.loosen (s := .suffixed) ih (by decide)
  | ofPrimary _ ih => exact CompletesLayer.loosen (s := .primary) ih (by decide)
  | comparison h hk h' ih ih' => exact .comparison hp h hk h' ih ih'
  | sum h hk h' ih ih' => exact .sum hp h hk h' ih ih'
  | product h hk h' ih ih' => exact .product hp h hk h' ih ih'
  | power h hk h' ih ih' => exact .power hp h hk h' ih ih'
  | sign hk h ih => exact .sign hp hk h ih
  | subscript h hk h' hx ih ih' => exact .subscript hp h hk h' hx ih ih'
  | call h hf hk h' hx ih ih' => exact .call h hf hk h' hx ih ih'
  | atom hk => exact .atom hk
  | group hk h hx ih => exact .group hp hk h hx ih
  | array hk h hx ih => exact .array hk h hx ih
  | one h ih => exact .one hp h ih
  | more h hx hs ih ihs => exact .more hp h hx hs ih ihs
  | noArguments => exact .inl ⟨rfl, rfl⟩
  | someArguments _ ih => exact .inr ih

/-- An expression before a token that is no operator is read as a whole. -/
theorem run_of_derivesExpr (h : DerivesExpr .expr ts rest [r]) {n : Nat} {c : Cursor}
    (hc : c.terminals = ts) (hrest : rest = t :: us)
    (ht : Operators.expressions.power t.kind = .default) (hn : ts.length ≤ n + rest.length) :
    ∃ node c', p.run n (.expr .default) c = .ok node c' ∧ c'.terminals = rest ∧ node.shape = r :=
  CompletesLayer.run_expr hp (completes hp h) (h.length_lt (by decide)) hc hrest ht hn

end Parser

end Scriptlet
