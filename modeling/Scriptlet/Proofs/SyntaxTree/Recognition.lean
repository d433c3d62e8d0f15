import Scriptlet.Proofs.SyntaxTree.Completeness
import Scriptlet.Proofs.Token.Terminals

/-!
The parser recognizes the grammar: it succeeds on the tokens that derive from it and on no others,
and its tree has the shape that the derivation dictates. Derivations of types, parameters and
statements are read here; those of expressions are taken from `Completeness`.
-/

namespace Scriptlet

open ParseM

/-! ## Lengths and first terminals -/

/-- The symbols that derive nothing. -/
def StmtSymbol.canBeEmpty : StmtSymbol → Bool
  | .statements | .parameterList | .returnType => true
  | _ => false

theorem DerivesStmt.length_le (h : DerivesStmt s ts rest ss) :
    rest.length + (if s.canBeEmpty then 0 else 1) ≤ ts.length := by
  induction h with
  | declaration _ _ _ h | print _ _ h | resultOf _ h | call h =>
    have := h.length_lt (by decide)
    simp [StmtSymbol.canBeEmpty] at this ⊢
    omega
  | assignment h _ _ h' =>
    have := h.length_lt (by decide)
    have := h'.length_lt (by decide)
    simp [StmtSymbol.canBeEmpty] at *
    omega
  | loop _ h _ _ ih =>
    have := h.length_lt (by decide)
    simp [StmtSymbol.canBeEmpty] at *
    omega
  | parameter _ _ h | someType _ h =>
    have := h.length_lt
    simp [StmtSymbol.canBeEmpty]
    omega
  | _ => simp [StmtSymbol.canBeEmpty] at * <;> omega

/-- What cannot be empty takes a terminal at least. -/
theorem DerivesStmt.length_lt (h : DerivesStmt s ts rest ss) (hs : s.canBeEmpty = false) :
    rest.length < ts.length := by
  have := h.length_le
  simp only [hs, Bool.false_eq_true, if_false] at this
  omega

theorem DerivesStmt.suffix (h : DerivesStmt s ts rest ss) : rest <:+ ts := by
  induction h <;> grind [List.suffix_cons, List.IsSuffix.trans, List.suffix_refl,
    → DerivesExpr.suffix, → DerivesType.suffix]

/-- A statement starts with neither of the terminals that end a list of them. -/
theorem DerivesStmt.head (h : DerivesStmt .statement ts rest ss) :
    ∃ t us, ts = t :: us ∧ t.kind ≠ .closeParen ∧ t.kind ≠ .endOfText := by
  cases h with
  | declaration hk | print hk | loop hk | function hk | result hk | resultOf hk =>
    exact ⟨_, _, rfl, by simp [hk], by simp [hk]⟩
  | assignment h | call h =>
    obtain ⟨t, us, rfl, l, hl⟩ := h.leading_head (by decide)
    refine ⟨t, us, rfl, ?_⟩
    constructor <;> rintro hk <;> rw [hk] at hl <;> cases hl

theorem DerivesStmt.parameters_head (h : DerivesStmt .parameters ts rest ss) :
    ∃ t us, ts = t :: us ∧ t.kind = .identifier := by
  cases h with
  | one h | more h =>
    cases h with
    | parameter hk => exact ⟨_, _, rfl, hk⟩

namespace Parser

variable {p : Parser}

/-! ## Types and parameters -/

/-- Reading a type comes to the rest with its tree to the left, as for the layers of expressions. -/
theorem operand_of_derivesType (solve : Goal → ParseM Node) (h : DerivesType ts rest s) {c : Cursor}
    (hc : c.terminals = ts) (hrest : rest = t :: us) :
    ∃ node c' k, node.shape = s ∧ c'.terminals = rest ∧ c'.remaining ≤ k ∧
      ∀ {last c''}, p.extend solve .types .default k node c' = .ok last c'' →
        p.operand solve .types .default c = .ok last c'' := by
  induction h generalizing t us with
  | name hk =>
    subst hrest
    obtain ⟨hkind, hvalue, hnext⟩ := Cursor.next_terminals hc
    refine ⟨leaf .type c.current, c.next, c.next.remaining, by rw [shape_leaf rfl, hvalue], hnext,
      Nat.le_refl _, fun hlast => operand_eq_ok.2 ⟨.namedType, by rw [hkind, hk]; rfl, _, _, ?_,
        hlast⟩⟩
    exact namedType_eq_ok.2 ⟨hkind.trans hk, rfl, rfl⟩
  | array h hl hr ih =>
    subst hrest
    obtain ⟨left, c₁, k, rfl, hc₁, hk, hlast₁⟩ := ih hc rfl
    obtain ⟨hkind, -, hnext⟩ := Cursor.next_terminals hc₁
    obtain ⟨hkind', -, hnext'⟩ := Cursor.next_terminals hnext
    have hrem : c₁.next.next.remaining < c₁.remaining := by
      rw [← Cursor.length_terminals, ← Cursor.length_terminals, hnext', hc₁]
      simp
    obtain ⟨j, rfl⟩ : ∃ j, k = j + 1 := ⟨k - 1, by omega⟩
    refine ⟨p.nodeTo .arrayType left.start [left] c₁.next.next, c₁.next.next, j,
      shape_nodeTo rfl .., hnext', by omega, fun hlast => hlast₁ (extend_succ_eq_ok.2 (.inl ?_))⟩
    rw [hkind, hl]
    refine ⟨by decide, .arrayType, rfl, _, _, ?_, hlast⟩
    exact arrayType_eq_ok.2 ⟨hkind.trans hl, hkind'.trans hr, rfl, rfl⟩

variable (hp : p.grammar = .standard)
include hp

/-- A type is read whole where no further bracket follows it. -/
theorem run_of_derivesType (h : DerivesType ts rest s) {n : Nat} {c : Cursor}
    (hc : c.terminals = ts) (hrest : rest = t :: us) (ht : t.kind ≠ .openBracket) (hn : 0 < n) :
    ∃ node c', p.run n (.type .default) c = .ok node c' ∧ c'.terminals = rest ∧ node.shape = s := by
  obtain ⟨m, rfl⟩ : ∃ m, n = m + 1 := ⟨n - 1, by omega⟩
  obtain ⟨node, c', k, hs, hc', hk, hread⟩ := operand_of_derivesType (p := p) (p.run m) h hc hrest
  obtain ⟨j, rfl⟩ : ∃ j, k = j + 1 := ⟨k - 1, by rw [Cursor.remaining] at hk; omega⟩
  refine ⟨node, c', ?_, hc', hs⟩
  rw [Parser.run, step, hp]
  refine hread (extend_succ_eq_ok.2 (.inr ⟨?_, rfl, rfl⟩))
  rw [Cursor.kind_of_terminals (hc'.trans hrest)]
  revert ht
  generalize t.kind = kind
  cases kind <;> decide

theorem param_of_derives (h : DerivesStmt .parameter ts rest [s]) {n : Nat} {c : Cursor}
    (hc : c.terminals = ts) (hrest : rest = t :: us) (ht : t.kind ≠ .openBracket) (hn : 0 < n) :
    ∃ node c', p.param (p.run n) c = .ok node c' ∧ c'.terminals = rest ∧ node.shape = s := by
  cases h with
  | parameter hx hd h =>
    obtain ⟨u, us, rfl⟩ := List.exists_cons_of_length_pos (Nat.zero_lt_of_lt h.length_lt)
    obtain ⟨hkind, hvalue, hnext⟩ := Cursor.next_terminals hc
    obtain ⟨hkind', -, hnext'⟩ := Cursor.next_terminals hnext
    obtain ⟨type, c', hread, hc', rfl⟩ := run_of_derivesType hp h hnext' hrest ht hn
    refine ⟨_, c', param_eq_ok.2 ⟨hkind.trans hx, hkind'.trans hd, type, c', hread, rfl, rfl⟩, hc',
      ?_⟩
    rw [shape_nodeTo rfl, Node.shapes_cons, shape_leaf rfl, hvalue]
    rfl

/-- Parameters are read up to the closing bracket. -/
theorem commaSeparated_of_parameters (h : DerivesStmt .parameters ts rest ss) {n k : Nat}
    {c : Cursor}
    (hc : c.terminals = ts) (hrest : rest = t :: us) (ht : t.kind = .closeParen) (hn : 0 < n)
    (hk : ts.length ≤ k + rest.length) :
    ∃ nodes c', commaSeparated (p.param (p.run n)) k c = .ok nodes c' ∧ c'.terminals = rest ∧
      Node.shapes nodes = ss := by
  generalize hs : StmtSymbol.parameters = s at h
  induction h generalizing k c with
  | one h =>
    have hlt := h.length_lt rfl
    obtain ⟨j, rfl⟩ : ∃ j, k = j + 1 := ⟨k - 1, by omega⟩
    obtain ⟨node, c', hread, hc', rfl⟩ := param_of_derives hp h hc hrest (by simp [ht]) hn
    refine ⟨[node], c', commaSeparated_succ_eq_ok.2 ⟨node, c', hread, .inr ⟨?_, rfl, rfl⟩⟩, hc',
      rfl⟩
    simp [Cursor.kind_of_terminals (hc'.trans hrest), ht]
  | more h hx h' _ ih =>
    have hlt := h.length_lt rfl
    have hlt' := h'.length_lt rfl
    rw [List.length_cons] at hlt
    obtain ⟨j, rfl⟩ : ∃ j, k = j + 1 := ⟨k - 1, by omega⟩
    obtain ⟨v, us', rfl⟩ := List.exists_cons_of_length_pos (Nat.zero_lt_of_lt hlt')
    obtain ⟨node, c₁, hread, hc₁, rfl⟩ := param_of_derives hp h hc rfl (by simp [hx]) hn
    obtain ⟨hkind, -, hnext⟩ := Cursor.next_terminals hc₁
    obtain ⟨nodes, c', hreads, hc', rfl⟩ := ih (k := j) hnext hrest (by omega) rfl
    exact ⟨node :: nodes, c', commaSeparated_succ_eq_ok.2
      ⟨node, c₁, hread, .inl ⟨hkind.trans hx, nodes, c', hreads, rfl, rfl⟩⟩, hc', rfl⟩
  | _ => cases hs

/-- The parameters of a function, from the token that opens them to the one that closes them. -/
theorem params_of_derives (h : DerivesStmt .parameterList ts (x :: rest) ss)
    (ho : o.kind = .openParen)
    (hx : x.kind = .closeParen) {n : Nat} {c : Cursor} (hc : c.terminals = o :: ts)
    (hrest : rest = t :: us) (hn : 0 < n) :
    ∃ node c', p.params (p.run n) c = .ok node c' ∧ c'.terminals = rest ∧
      node.shape = .branch .params ss := by
  subst hrest
  cases h with
  | noParameters =>
    obtain ⟨hkind, -, hnext⟩ := Cursor.next_terminals hc
    obtain ⟨hkind', -, hnext'⟩ := Cursor.next_terminals hnext
    exact ⟨_, c.next.next, params_eq_ok.2 ⟨hkind.trans ho, .inl ⟨hkind'.trans hx, rfl, rfl⟩⟩,
      hnext', shape_nodeTo rfl ..⟩
  | someParameters h =>
    obtain ⟨v, us', rfl, hv⟩ : ∃ v us', ts = v :: us' ∧ v.kind = .identifier := h.parameters_head
    obtain ⟨hkind, -, hnext⟩ := Cursor.next_terminals hc
    obtain ⟨nodes, c₁, hread, hc₁, rfl⟩ := commaSeparated_of_parameters hp h hnext rfl hx hn
      (k := c.next.remaining) (by rw [← Cursor.length_terminals, hnext]; omega)
    obtain ⟨hkind₁, -, hnext₁⟩ := Cursor.next_terminals hc₁
    have hopen : c.next.kind ≠ .closeParen := by simp [Cursor.kind_of_terminals hnext, hv]
    exact ⟨_, c₁.next, params_eq_ok.2 ⟨hkind.trans ho,
      .inr ⟨hopen, nodes, c₁, hread, hkind₁.trans hx, rfl, rfl⟩⟩, hnext₁, shape_nodeTo rfl ..⟩

/-! ## Statements -/

omit hp in
/-- A reading comes to the rest, as deep as there are terminals. -/
def Reaches (item : Nat → ParseM Node) (ts rest : List Terminal) (ss : List Shape) : Prop :=
  ∀ ⦃n c t us⦄, c.terminals = ts → rest = t :: us → ts.length ≤ n + rest.length →
    ∃ node c', item n c = .ok node c' ∧ c'.terminals = rest ∧ ss = [node.shape]

omit hp in
/-- A loop over statements comes to the rest. -/
def ReachesAll (items : Nat → Nat → ParseM (List Node)) (ts rest : List Terminal)
    (ss : List Shape) : Prop :=
  ∀ ⦃n k c⦄, c.terminals = ts → ts.length ≤ n + rest.length → ts.length < k + rest.length →
    ∃ nodes c', items n k c = .ok nodes c' ∧ c'.terminals = rest ∧ Node.shapes nodes = ss

omit hp in
/-- What it is to read a derivation. A list of statements is read by two loops, each up to its own
last terminal. -/
def CompletesStmt (p : Parser) : StmtSymbol → List Terminal → List Terminal → List Shape → Prop
  | .statement => Reaches fun n => p.run n .stmt
  | .block => Reaches fun n => p.block (p.run n)
  | .statements => fun ts rest ss => ∀ t us, rest = t :: us →
      (t.kind = .closeParen → ReachesAll (fun n => untilClosed (p.run n .stmt)) ts rest ss) ∧
        (t.kind = .endOfText → ReachesAll (fun n => untilEnd (p.run n .stmt)) ts rest ss)
  | _ => fun _ _ _ => True

/-- A statement with a word of its own is read by the construct of the word. -/
theorem CompletesStmt.ofWord {l : Leading} (hl : Grammar.standard.statement w.kind = some l)
    (hd : DerivesStmt .statement (w :: ts) rest [s])
    (hread : ∀ {n c t us}, c.terminals = w :: ts → rest = t :: us → ts.length ≤ n + rest.length →
      ∃ node c', p.leading (p.run n) l c = .ok node c' ∧ c'.terminals = rest ∧ node.shape = s) :
    p.CompletesStmt .statement (w :: ts) rest [s] := by
  intro n c t us hc hrest hn
  have hlt := hd.length_lt rfl
  obtain ⟨m, rfl⟩ : ∃ m, n = m + 1 := ⟨n - 1, by omega⟩
  obtain ⟨node, c', h, hc', rfl⟩ := hread (n := m) hc hrest (by rw [List.length_cons] at hn; omega)
  refine ⟨node, c', statement_eq_ok.2 (.inl ⟨l, ?_, h⟩), hc', rfl⟩
  rwa [hp, Cursor.kind_of_terminals hc]

theorem CompletesStmt.declaration (hw : w.kind = .letWord) (hx : x.kind = .identifier)
    (hq : q.kind = .assignment) (h : DerivesExpr .expr ts (d :: rest) [e])
    (hd : d.kind = .semicolon) :
    p.CompletesStmt .statement (w :: x :: q :: ts) rest
      [.branch .varDec [.leaf .id x.value, e]] := by
  refine .ofWord (l := .declaration) hp (by rw [hw]; rfl) (.declaration hw hx hq h hd) ?_
  rintro n c t us hc rfl hn
  obtain ⟨u, us', rfl⟩ := List.exists_cons_of_length_pos
    (Nat.zero_lt_of_lt (h.length_lt (by decide)))
  obtain ⟨-, -, hc₁⟩ := Cursor.next_terminals hc
  obtain ⟨hx', hvalue, hc₂⟩ := Cursor.next_terminals hc₁
  obtain ⟨hq', -, hc₃⟩ := Cursor.next_terminals hc₂
  obtain ⟨node, c₄, hread, hc₄, rfl⟩ := run_of_derivesExpr hp h hc₃ rfl (by rw [hd]; rfl) (n := n)
    (by simp only [List.length_cons] at hn ⊢; omega)
  obtain ⟨hd', -, hc'⟩ := Cursor.next_terminals hc₄
  refine ⟨_, c₄.next, declaration_eq_ok.2 ⟨hx'.trans hx, hq'.trans hq, node, c₄, hread,
    hd'.trans hd, rfl, rfl⟩, hc', ?_⟩
  rw [shape_nodeTo rfl, Node.shapes_cons, shape_leaf rfl, hvalue]
  rfl

theorem CompletesStmt.print (hw : w.kind = .printWord) (ho : o.kind = .openParen)
    (h : DerivesExpr .expr ts (x :: d :: rest) [e]) (hx : x.kind = .closeParen)
    (hd : d.kind = .semicolon) :
    p.CompletesStmt .statement (w :: o :: ts) rest [.branch .printStmt [e]] := by
  refine .ofWord (l := .print) hp (by rw [hw]; rfl) (.print hw ho h hx hd) ?_
  rintro n c t us hc rfl hn
  obtain ⟨u, us', rfl⟩ := List.exists_cons_of_length_pos
    (Nat.zero_lt_of_lt (h.length_lt (by decide)))
  obtain ⟨-, -, hc₁⟩ := Cursor.next_terminals hc
  obtain ⟨ho', -, hc₂⟩ := Cursor.next_terminals hc₁
  obtain ⟨node, c₃, hread, hc₃, rfl⟩ := run_of_derivesExpr hp h hc₂ rfl (by rw [hx]; rfl) (n := n)
    (by simp only [List.length_cons] at hn ⊢; omega)
  obtain ⟨hx', -, hc₄⟩ := Cursor.next_terminals hc₃
  obtain ⟨hd', -, hc'⟩ := Cursor.next_terminals hc₄
  exact ⟨_, c₃.next.next, print_eq_ok.2 ⟨ho'.trans ho, node, c₃, hread, hx'.trans hx, hd'.trans hd,
    rfl, rfl⟩, hc', shape_nodeTo rfl ..⟩

theorem CompletesStmt.loop (hw : w.kind = .whileWord) (h : DerivesExpr .expr ts (d :: us) [e])
    (hd : d.kind = .colon) (hb : DerivesStmt .block us rest [b])
    (ih : p.CompletesStmt .block us rest [b]) :
    p.CompletesStmt .statement (w :: ts) rest [.branch .whileStmt [e, b]] := by
  refine .ofWord (l := .loop) hp (by rw [hw]; rfl) (.loop hw h hd hb) ?_
  rintro n c t vs hc hrest hn
  have hlt := h.length_lt (by decide)
  have hlt' := hb.length_lt rfl
  obtain ⟨u, us', rfl⟩ := List.exists_cons_of_length_pos (Nat.zero_lt_of_lt hlt)
  obtain ⟨v, vs', rfl⟩ := List.exists_cons_of_length_pos (Nat.zero_lt_of_lt hlt')
  simp only [List.length_cons] at hn hlt hlt'
  obtain ⟨-, -, hc₁⟩ := Cursor.next_terminals hc
  obtain ⟨test, c₂, hread, hc₂, rfl⟩ := run_of_derivesExpr hp h hc₁ rfl (by rw [hd]; rfl) (n := n)
    (by simp only [List.length_cons]; omega)
  obtain ⟨hd', -, hc₃⟩ := Cursor.next_terminals hc₂
  obtain ⟨body, c', hread', hc', hs⟩ := ih (n := n) hc₃ hrest
    (by simp only [List.length_cons]; omega)
  obtain rfl := List.singleton_inj.1 hs
  exact ⟨_, c', loop_eq_ok.2 ⟨test, c₂, hread, hd'.trans hd, body, c', hread', rfl, rfl⟩, hc',
    shape_nodeTo rfl ..⟩

theorem returnType_of_derives (h : DerivesStmt .returnType ts rest ss) {n : Nat} {c : Cursor}
    (hc : c.terminals = ts) (hrest : rest = d :: us) (hd : d.kind = .colon) (hn : 0 < n) :
    ∃ type c', (c.kind = .arrow ∧
          (∃ t c₁, p.run n (.type .default) c.next = .ok t c₁ ∧ type = [t] ∧ c' = c₁) ∨
        c.kind ≠ .arrow ∧ type = [] ∧ c' = c) ∧
      c'.terminals = rest ∧ Node.shapes type = ss := by
  cases h with
  | noType =>
    refine ⟨[], c, .inr ⟨?_, rfl, rfl⟩, hc, rfl⟩
    simp [Cursor.kind_of_terminals (hc.trans hrest), hd]
  | someType ha h =>
    obtain ⟨u, us', rfl⟩ := List.exists_cons_of_length_pos (Nat.zero_lt_of_lt h.length_lt)
    obtain ⟨hkind, -, hnext⟩ := Cursor.next_terminals hc
    obtain ⟨type, c', hread, hc', rfl⟩ := run_of_derivesType hp h hnext hrest (by simp [hd]) hn
    exact ⟨[type], c', .inl ⟨hkind.trans ha, type, c', hread, rfl, rfl⟩, hc', rfl⟩

/-- A function is read from its parts, with or without a type to return. -/
theorem CompletesStmt.function (hw : w.kind = .funWord) (hx : x.kind = .identifier)
    (ho : o.kind = .openParen) (h : DerivesStmt .parameterList ts (x' :: us) ps)
    (hx' : x'.kind = .closeParen) (ht : DerivesStmt .returnType us (d :: vs) type)
    (hd : d.kind = .colon) (hb : DerivesStmt .block vs rest [b])
    (ih : p.CompletesStmt .block vs rest [b]) :
    p.CompletesStmt .statement (w :: x :: o :: ts) rest
      [.branch .funDec (.leaf .id x.value :: .branch .params ps :: type ++ [b])] := by
  refine .ofWord (l := .function) hp (by rw [hw]; rfl) (.function hw hx ho h hx' ht hd hb) ?_
  rintro n c t ws hc hrest hn
  have hle := h.length_le
  have hlet := ht.length_le
  have hlt := hb.length_lt rfl
  obtain ⟨v, vs, rfl⟩ := List.exists_cons_of_length_pos (Nat.zero_lt_of_lt hlt)
  obtain ⟨u, us, rfl⟩ := List.exists_cons_of_length_pos
    (Nat.lt_of_lt_of_le (Nat.zero_lt_succ _) hlet)
  simp only [List.length_cons] at hn hle hlet hlt
  obtain ⟨-, -, hc₁⟩ := Cursor.next_terminals hc
  obtain ⟨hkind, hvalue, hc₂⟩ := Cursor.next_terminals hc₁
  obtain ⟨list, c₃, hread, hc₃, hshape⟩ := params_of_derives hp h ho hx' hc₂ rfl (n := n) (by omega)
  obtain ⟨result, c₄, hread', hc₄, rfl⟩ := returnType_of_derives hp ht hc₃ rfl hd (n := n)
    (by omega)
  obtain ⟨hd', -, hc₅⟩ := Cursor.next_terminals hc₄
  obtain ⟨body, c', hread'', hc', hs⟩ := ih (n := n) hc₅ hrest
    (by simp only [List.length_cons]; omega)
  obtain rfl := List.singleton_inj.1 hs
  refine ⟨_, c', function_eq_ok.2 ⟨hkind.trans hx, list, c₃, hread, result, c₄, hread',
    hd'.trans hd, body, c', hread'', rfl, rfl⟩, hc', ?_⟩
  rw [shape_nodeTo rfl, Node.shapes_append, Node.shapes_cons, Node.shapes_cons, shape_leaf rfl,
    hvalue, hshape]
  rfl

theorem CompletesStmt.result (hw : w.kind = .returnWord) (hd : d.kind = .semicolon) :
    p.CompletesStmt .statement (w :: d :: rest) rest [.branch .returnStmt []] := by
  refine .ofWord (l := .result) hp (by rw [hw]; rfl) (.result hw hd) ?_
  rintro n c t us hc rfl -
  obtain ⟨-, -, hc₁⟩ := Cursor.next_terminals hc
  obtain ⟨hd', -, hc'⟩ := Cursor.next_terminals hc₁
  exact ⟨_, c.next.next, result_eq_ok.2 (.inl ⟨hd'.trans hd, rfl, rfl⟩), hc', shape_nodeTo rfl ..⟩

theorem CompletesStmt.resultOf (hw : w.kind = .returnWord)
    (h : DerivesExpr .expr ts (d :: rest) [e]) (hd : d.kind = .semicolon) :
    p.CompletesStmt .statement (w :: ts) rest [.branch .returnStmt [e]] := by
  refine .ofWord (l := .result) hp (by rw [hw]; rfl) (.resultOf hw h hd) ?_
  rintro n c t us hc rfl hn
  obtain ⟨v, vs, rfl, l, hl⟩ := h.leading_head (by decide)
  obtain ⟨-, -, hc₁⟩ := Cursor.next_terminals hc
  have hopen : c.next.kind ≠ .semicolon := by
    rw [Cursor.kind_of_terminals hc₁]
    intro hk
    rw [hk] at hl
    cases hl
  obtain ⟨value, c₂, hread, hc₂, rfl⟩ := run_of_derivesExpr hp h hc₁ rfl (by rw [hd]; rfl) (n := n)
    (by simp only [List.length_cons] at hn ⊢; omega)
  obtain ⟨hd', -, hc'⟩ := Cursor.next_terminals hc₂
  exact ⟨_, c₂.next, result_eq_ok.2 (.inr ⟨hopen, value, c₂, hread, hd'.trans hd, rfl, rfl⟩), hc',
    shape_nodeTo rfl ..⟩

/-- A statement that begins with an expression. -/
theorem CompletesStmt.ofExpr (h : DerivesExpr .expr ts (x :: us) [e])
    (hx : Operators.expressions.power x.kind = .default) (hlt : rest.length ≤ us.length)
    (hread : ∀ {n c t vs expr c₁}, rest = t :: vs → ts.length ≤ n + 1 + rest.length →
      p.run n (.expr .default) c = .ok expr c₁ → c₁.terminals = x :: us → expr.shape = e →
      ∃ node c', p.simpleStatement (p.run n) c = .ok node c' ∧ c'.terminals = rest ∧
        node.shape = s) :
    p.CompletesStmt .statement ts rest [s] := by
  intro n c t vs hc hrest hn
  have hlt' := h.length_lt (by decide)
  rw [List.length_cons] at hlt'
  obtain ⟨m, rfl⟩ : ∃ m, n = m + 1 := ⟨n - 1, by omega⟩
  obtain ⟨v, ts, rfl, l, hl⟩ := h.leading_head (by decide)
  obtain ⟨expr, c₁, hexpr, hc₁, hs⟩ := run_of_derivesExpr hp h hc rfl hx (n := m) (by
    simp only [List.length_cons] at hn ⊢; omega)
  obtain ⟨node, c', hsimple, hc', rfl⟩ := hread hrest hn hexpr hc₁ hs
  refine ⟨node, c', statement_eq_ok.2 (.inr ⟨?_, hsimple⟩), hc', rfl⟩
  rw [hp, Cursor.kind_of_terminals hc]
  generalize v.kind = kind at hl
  cases kind <;> first | rfl | cases hl

/-- The sign tells an assignment from a call, after the expression on its left is read. -/
theorem CompletesStmt.assignment (h : DerivesExpr .expr ts (q :: us) [e])
    (he : e.rule = .id ∨ e.rule = .subscript) (hq : q.kind = .assignment)
    (h' : DerivesExpr .expr us (d :: rest) [e']) (hd : d.kind = .semicolon) :
    p.CompletesStmt .statement ts rest [.branch .assignStmt [e, e']] := by
  have hlt := h.length_lt (by decide)
  have hlt' := h'.length_lt (by decide)
  rw [List.length_cons] at hlt hlt'
  refine .ofExpr hp h (by rw [hq]; rfl) (by omega) ?_
  rintro n c t vs target c₁ rfl hn htarget hc₁ rfl
  obtain ⟨u, us, rfl⟩ := List.exists_cons_of_length_pos (Nat.zero_lt_of_lt hlt')
  obtain ⟨hq', -, hc₂⟩ := Cursor.next_terminals hc₁
  obtain ⟨source, c₃, hread, hc₃, rfl⟩ := run_of_derivesExpr hp h' hc₂ rfl (by rw [hd]; rfl)
    (n := n) (by simp only [List.length_cons] at hn hlt ⊢; omega)
  obtain ⟨hd', -, hc'⟩ := Cursor.next_terminals hc₃
  rw [Node.shape_rule] at he
  exact ⟨_, c₃.next, simpleStatement_eq_ok.2 ⟨target, c₁, htarget,
    .inl ⟨hq'.trans hq, he, source, c₃, hread, hd'.trans hd, rfl, rfl⟩⟩, hc', shape_nodeTo rfl ..⟩

theorem CompletesStmt.call (h : DerivesExpr .expr ts (d :: rest) [e]) (he : e.rule = .call)
    (hd : d.kind = .semicolon) :
    p.CompletesStmt .statement ts rest [.branch .callStmt [e]] := by
  refine .ofExpr hp h (by rw [hd]; rfl) (Nat.le_refl _) ?_
  rintro n c t vs call c₁ rfl - hcall hc₁ rfl
  obtain ⟨hd', -, hc'⟩ := Cursor.next_terminals hc₁
  rw [Node.shape_rule] at he
  exact ⟨_, c₁.next, simpleStatement_eq_ok.2 ⟨call, c₁, hcall, .inr ⟨by simp [hd', hd], he,
    hd'.trans hd, rfl, rfl⟩⟩, hc', shape_nodeTo rfl ..⟩

omit hp in
theorem CompletesStmt.block (ho : o.kind = .openParen)
    (hd : DerivesStmt .statements ts (x :: rest) ss) (hx : x.kind = .closeParen)
    (ih : p.CompletesStmt .statements ts (x :: rest) ss) :
    p.CompletesStmt .block (o :: ts) rest [.branch .block ss] := by
  rintro n c t us hc rfl hn
  obtain ⟨u, us', rfl⟩ := List.exists_cons_of_length_pos
    (Nat.lt_of_lt_of_le (Nat.zero_lt_succ _) hd.length_le)
  obtain ⟨ho', -, hc₁⟩ := Cursor.next_terminals hc
  simp only [List.length_cons] at hn
  obtain ⟨nodes, c₂, hread, hc₂, rfl⟩ := (ih _ _ rfl).1 hx (n := n) (k := c.next.remaining) hc₁
    (by simp only [List.length_cons]; omega)
    (by rw [← Cursor.length_terminals, hc₁]; simp only [List.length_cons]; omega)
  obtain ⟨hx', -, hc'⟩ := Cursor.next_terminals hc₂
  exact ⟨_, c₂.next, block_eq_ok.2 ⟨ho'.trans ho, nodes, c₂, hread, hx'.trans hx, rfl, rfl⟩, hc',
    congrArg (fun s => [s]) (shape_nodeTo rfl ..).symm⟩

omit hp in
theorem CompletesStmt.nil : p.CompletesStmt .statements rest rest [] := by
  rintro t us rfl
  constructor
  all_goals
    intro ht n k c hc _ hk
    obtain ⟨j, rfl⟩ : ∃ j, k = j + 1 := ⟨k - 1, by omega⟩
    have hkind := (Cursor.kind_of_terminals hc).trans ht
  · exact ⟨[], c, untilClosed_succ_eq_ok.2 (.inl ⟨hkind, rfl, rfl⟩), hc, rfl⟩
  · exact ⟨[], c, untilEnd_succ_eq_ok.2 (.inl ⟨hkind, rfl, rfl⟩), hc, rfl⟩

omit hp in
/-- One statement after the other. The length of what is left bounds the rounds of the loop. -/
theorem CompletesStmt.cons (h : DerivesStmt .statement ts us [s])
    (h' : DerivesStmt .statements us rest ss) (ih : p.CompletesStmt .statement ts us [s])
    (ih' : p.CompletesStmt .statements us rest ss) :
    p.CompletesStmt .statements ts rest (s :: ss) := by
  rintro t vs rfl
  have hlt := h.length_lt rfl
  have hle := h'.length_le
  obtain ⟨v, vs', rfl, hclose, hend⟩ := h.head
  obtain ⟨u, us', rfl⟩ := List.exists_cons_of_length_pos
    (Nat.lt_of_lt_of_le (Nat.zero_lt_succ _) hle)
  constructor
  all_goals
    intro ht n k c hc hn hk
    simp only [List.length_cons] at hlt hle hn hk
    obtain ⟨j, rfl⟩ : ∃ j, k = j + 1 := ⟨k - 1, by omega⟩
    rw [← Cursor.kind_of_terminals hc] at hclose hend
    obtain ⟨node, c₁, hread, hc₁, hs⟩ := ih (n := n) hc rfl (by simp only [List.length_cons]; omega)
    obtain rfl := List.singleton_inj.1 hs
  · obtain ⟨nodes, c', hreads, hc', rfl⟩ := (ih' _ _ rfl).1 ht (n := n) (k := j) hc₁
      (by simp only [List.length_cons]; omega) (by simp only [List.length_cons]; omega)
    exact ⟨node :: nodes, c', untilClosed_succ_eq_ok.2
      (.inr ⟨hclose, hend, node, c₁, hread, nodes, c', hreads, rfl, rfl⟩), hc', rfl⟩
  · obtain ⟨nodes, c', hreads, hc', rfl⟩ := (ih' _ _ rfl).2 ht (n := n) (k := j) hc₁
      (by simp only [List.length_cons]; omega) (by simp only [List.length_cons]; omega)
    exact ⟨node :: nodes, c', untilEnd_succ_eq_ok.2
      (.inr ⟨hend, node, c₁, hread, nodes, c', hreads, rfl, rfl⟩), hc', rfl⟩

/-- Every derivation of statements can be read. -/
theorem completesStmt (h : DerivesStmt s ts rest ss) : p.CompletesStmt s ts rest ss := by
  induction h with
  | nil => exact .nil
  | cons h h' ih ih' => exact .cons h h' ih ih'
  | block ho h hx ih => exact .block ho h hx ih
  | declaration hw hx hq h hd => exact .declaration hp hw hx hq h hd
  | print hw ho h hx hd => exact .print hp hw ho h hx hd
  | loop hw h hd hb ih => exact .loop hp hw h hd hb ih
  | function hw hx ho h hx' ht hd hb _ _ ih => exact .function hp hw hx ho h hx' ht hd hb ih
  | result hw hd => exact .result hp hw hd
  | resultOf hw h hd => exact .resultOf hp hw h hd
  | assignment h ht hq h' hd => exact .assignment hp h ht hq h' hd
  | call h hf hd => exact .call hp h hf hd
  | _ => trivial

end Parser

/-! ## Programs -/

namespace EndsOnce

theorem terminals_ofTokens (h : EndsOnce tokens) :
    (Cursor.ofTokens tokens).terminals = tokens.map Token.terminal := by
  obtain ⟨body, last, rfl, hlast, -⟩ := h
  cases body <;> simp [Cursor.ofTokens, Cursor.closing, Cursor.terminals, hlast]

theorem ended_ofTokens (h : EndsOnce tokens) : (Cursor.ofTokens tokens).Ended := by
  rw [Cursor.Ended, h.terminals_ofTokens]
  obtain ⟨body, last, rfl, hlast, -⟩ := h
  exact ⟨last.terminal, by simp, hlast⟩

/-- What starts with the token that ends the text is that token alone. -/
theorem eq_singleton (h : EndsOnce tokens) (hsuffix : t :: ts <:+ tokens.map Token.terminal)
    (ht : t.kind = .endOfText) : ts = [] := by
  obtain ⟨body, last, rfl, -, hbody⟩ := h
  rw [List.map_append, List.map_singleton] at hsuffix
  rcases List.suffix_concat_iff.1 hsuffix with h | ⟨us, hus, hsub⟩
  · cases h
  · cases us with
    | nil => exact (List.cons.inj hus).2
    | cons u us =>
      obtain ⟨rfl, rfl⟩ := List.cons.inj hus
      obtain ⟨b, hb, rfl⟩ := List.mem_map.1 (hsub.subset (List.mem_cons_self ..))
      exact (hbody b hb ht).elim

end EndsOnce

/-- An expression is read up to the end of the text if and only if the grammar dictates its tree. -/
theorem solve_expr_iff_derives (h : EndsOnce tokens) (source : String) (shape : Shape) :
    (∃ node c, Parser.solve ⟨.standard, source.toList⟩ (.expr .default) (.ofTokens tokens) =
        .ok node c ∧ c.kind = .endOfText ∧ node.shape = shape) ↔
      ∃ t, DerivesExpr .expr (tokens.map Token.terminal) [t] [shape] ∧ t.kind = .endOfText := by
  have hterminals := h.terminals_ofTokens
  constructor
  · rintro ⟨node, c, hread, hk, rfl⟩
    obtain ⟨⟨hd, -⟩, -⟩ := Parser.run_sound rfl _ (.expr .default)
      (by decide) h.ended_ofTokens hread
    rw [hterminals, c.terminals_eq_cons] at hd
    rw [h.eq_singleton hd.suffix hk] at hd
    exact ⟨_, hd, hk⟩
  · rintro ⟨t, hd, hk⟩
    obtain ⟨node, c, hread, hc, hshape⟩ := Parser.run_of_derivesExpr
      (p := ⟨.standard, source.toList⟩) rfl hd (n := Parser.depth (.ofTokens tokens)) hterminals rfl
      (by rw [hk]; rfl) (by rw [← hterminals, Cursor.length_terminals, Parser.depth]; omega)
    exact ⟨node, c, hread, (Cursor.kind_of_terminals hc).trans hk, hshape⟩

/-- The text can be scanned, and all of it is read as one expression with a tree of the shape. -/
def ReadsAs (text : String) (file : Option String) (shape : Shape) : Prop :=
  ∃ tokens node c, tokenize text file = .ok tokens ∧
    Parser.solve ⟨.standard, text.toList⟩ (.expr .default) (.ofTokens tokens) = .ok node c ∧
    c.kind = .endOfText ∧ node.shape = shape

/-- A text reads as a tree if the grammar derives it from the terminals, up to their end. -/
theorem readsAs_iff_derives {text : String} {ts : List Terminal}
    (h : terminals? text.toList = some ts) (file : Option String) (shape : Shape) :
    ReadsAs text file shape ↔ ∃ t, DerivesExpr .expr ts [t] [shape] ∧ t.kind = .endOfText := by
  obtain ⟨tokens, htokens, rfl⟩ := (tokenize_eq_ok_iff file).2 h
  rw [← solve_expr_iff_derives (tokenize_coherent htokens).1 text shape]
  constructor
  · rintro ⟨tokens', node, c, htokens', hread⟩
    cases htokens.symm.trans htokens'
    exact ⟨node, c, hread⟩
  · rintro ⟨node, c, hread⟩
    exact ⟨tokens, node, c, htokens, hread⟩

/-- A tree that is read is derived from the tokens. -/
theorem derivesProgram_of_parse {source : String} {node : Node} (h : EndsOnce tokens)
    (hread : parse tokens source = .ok node) :
    DerivesProgram (tokens.map Token.terminal) node.shape := by
  obtain ⟨c, hprogram⟩ := parse_eq_ok.1 hread
  obtain ⟨statements, hstmts, rfl⟩ := Parser.program_eq_ok.1 hprogram
  have hloop := Parser.readsUntil_of_untilEnd hstmts
  have hk := hloop.kind_eq
  obtain ⟨hd, -⟩ := statements_sound (Parser.run_sound rfl _) h.ended_ofTokens hloop
  rw [h.terminals_ofTokens, c.terminals_eq_cons] at hd
  rw [h.eq_singleton hd.suffix hk] at hd
  rw [Parser.shape_nodeTo rfl]
  exact .intro hd hk

/-- A tree that is derived is read. -/
theorem exists_parse_of_derives (h : EndsOnce tokens) (source : String)
    (hd : DerivesProgram (tokens.map Token.terminal) shape) :
    ∃ node, parse tokens source = .ok node ∧ node.shape = shape := by
  obtain ⟨hd, hk⟩ := hd
  have hterminals := h.terminals_ofTokens
  have hstmts := Parser.completesStmt (p := ⟨.standard, source.toList⟩) rfl hd
  obtain ⟨statements, c, hread, -, rfl⟩ := (hstmts _ _ rfl).2 hk
    (n := Parser.depth (.ofTokens tokens)) (k := (Cursor.ofTokens tokens).remaining) hterminals
    (by rw [← hterminals, Cursor.length_terminals, Parser.depth]; omega)
    (by rw [← hterminals, Cursor.length_terminals]; simp)
  have hprogram := Parser.program_eq_ok.2 ⟨statements, hread, rfl⟩
  exact ⟨_, parse_eq_ok.2 ⟨c, hprogram⟩, Parser.shape_nodeTo rfl ..⟩

/-- The trees of the parser are those that the grammar dictates, and no other tokens have one. -/
theorem parse_eq_ok_iff_derives (h : EndsOnce tokens) (source : String) (shape : Shape) :
    (∃ node, parse tokens source = .ok node ∧ node.shape = shape) ↔
      DerivesProgram (tokens.map Token.terminal) shape := by
  constructor
  · rintro ⟨node, hread, rfl⟩
    exact derivesProgram_of_parse h hread
  · exact exists_parse_of_derives h source

/-- The statement `x = -a ** 2 - b < c;`. -/
def assignmentTokens : List Token :=
  [(.identifier, "x"), (.assignment, "="), (.dash, "-"), (.identifier, "a"), (.starStar, "**"),
    (.number, "2"), (.dash, "-"), (.identifier, "b"), (.less, "<"), (.identifier, "c"),
    (.semicolon, ";"), (.endOfText, "EOF")].map fun (kind, value) => ⟨kind, value, .nowhere⟩

theorem derivesProgram_assignmentTokens :
    EndsOnce assignmentTokens ∧ DerivesProgram (assignmentTokens.map Token.terminal)
      (.branch .program [.branch .assignStmt [.leaf .id "x",
        .branch .binary [
          .branch .binary [
            .branch .unary [.leaf .op "-",
              .branch .binary [.leaf .id "a", .leaf .op "**", .leaf .num "2"]],
            .leaf .op "-", .leaf .id "b"],
          .leaf .op "<", .leaf .id "c"]]]) := by
  have h : EndsOnce assignmentTokens :=
    ⟨assignmentTokens.dropLast, ⟨.endOfText, "EOF", .nowhere⟩, rfl, rfl, by decide⟩
  exact ⟨h, (parse_eq_ok_iff_derives h "" _).1 ⟨_, rfl, rfl⟩⟩

end Scriptlet
