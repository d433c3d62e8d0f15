import Scriptlet.Proofs.Program.Parts
import Scriptlet.Proofs.Script.Terminals
import Scriptlet.Proofs.SyntaxTree.Balance
import Scriptlet.Proofs.SyntaxTree.Recognition

/-!
Which expressions a script keeps together. Scripts write operations without parentheses, so that an
operand that binds less tightly than its operator asks is grouped in another way when the script is
read. The main statement says that the others, and no more, are read back as they were.
-/

namespace Scriptlet

/-! ## Trees and levels -/

def Literal.shape : Literal → Shape
  | number value => .leaf .num (scriptNumber value)
  | bigInt value => .leaf .num (toString value ++ "n")
  | str value => .leaf .str value
  | bool true => .leaf .true "true"
  | bool false => .leaf .false "false"
  | null => .leaf .id "null"
  | undefined => .leaf .id "undefined"

namespace BinaryOp

/-- How tightly an operation binds: comparisons, sums, products and powers. Between products and
powers are the unary operations. -/
def level : BinaryOp → Nat
  | equals | notEquals | less | lessEquals | greater | greaterEquals => 1
  | add | subtract => 2
  | multiply | divide | modulo => 3
  | power => 5
  | coalesce => 6

/-- The least level of the left operand. -/
def leftLevel : BinaryOp → Nat
  | multiply | divide | modulo => 3
  | power => 6
  | _ => 2

/-- The least level of the right operand. -/
def rightLevel : BinaryOp → Nat
  | add | subtract => 3
  | multiply | divide | modulo | power => 4
  | _ => 2

end BinaryOp

namespace Expr

mutual

/-- The tree of an expression, up to spans and the texts of its interior nodes. -/
def shape : Expr → Shape
  | literal value => value.shape
  | var v => .leaf .id v.name
  | binary op left right _ => .branch .binary [left.shape, .leaf .op op.symbol, right.shape]
  | unary op operand _ => .branch .unary [.leaf .op op.symbol, operand.shape]
  | array elements _ => .branch .arrayLit (shapes elements)
  | subscript base index _ => .branch .subscript [base.shape, index.shape]
  | call name args _ => .branch .call (.leaf .id name :: shapes args)

def shapes : List Expr → List Shape
  | [] => []
  | e :: es => e.shape :: shapes es

end

/-- How tightly an expression binds, from one for comparisons to six for what is no operation. -/
def level : Expr → Nat
  | binary op _ _ _ => op.level
  | unary _ _ _ => 4
  | _ => 6

/-- No operand binds less tightly than its operator asks. A negation writes parentheses itself, and
so asks nothing. -/
inductive NeedsNoParens : Expr → Prop where
  | literal : NeedsNoParens (.literal value)
  | var : NeedsNoParens (.var v)
  | binary : op ≠ .coalesce → op.leftLevel ≤ left.level → op.rightLevel ≤ right.level →
      NeedsNoParens left → NeedsNoParens right → NeedsNoParens (.binary op left right t)
  | negate : NeedsNoParens operand → NeedsNoParens (.unary .negate operand t)
  | not : 4 ≤ operand.level → NeedsNoParens operand → NeedsNoParens (.unary .not operand t)
  | array : (∀ e ∈ elements, NeedsNoParens e) → NeedsNoParens (.array elements t)
  | subscript : base.level = 6 → NeedsNoParens base → NeedsNoParens index →
      NeedsNoParens (.subscript base index t)
  | call : (∀ e ∈ args, NeedsNoParens e) → NeedsNoParens (.call name args t)

theorem level_bounds (e : Expr) : 0 < e.level ∧ e.level ≤ 6 := by
  cases e with
  | binary op => cases op <;> simp [level, BinaryOp.level]
  | _ => simp [level]

/-- The operations with two operands. -/
def isOperation : Expr → Bool
  | binary .. => true
  | _ => false

/-- The operand of a negation stands in parentheses, or binds tightly enough without. -/
theorem negated_cases (e : Expr) (ts : List Terminal) :
    e.isOperation = true ∧ negated e ts = Terminal.parenthesized ts ∨
      4 ≤ e.level ∧ negated e ts = ts := by
  cases e with
  | binary op left right t => exact .inl ⟨rfl, rfl⟩
  | _ => exact .inr ⟨by simp [level], rfl⟩

end Expr

/-! ## What needs no parentheses is read back -/

section

open Terminal

variable {s : ExprSymbol} {ts us rest : List Terminal} {l r : Shape} {o : Terminal}

/-- An operation derives from every layer up to its level if its operands derive from every layer up
to the levels that it asks for. -/
theorem DerivesExpr.ofOperator {op : BinaryOp} (ho : op.kind? = some o.kind)
    (hl : ∀ s, 0 < s.layer → s.layer ≤ op.leftLevel → DerivesExpr s ts (o :: us) [l])
    (hr : ∀ s, 0 < s.layer → s.layer ≤ op.rightLevel → DerivesExpr s us rest [r])
    (hs : 0 < s.layer) (hle : s.layer ≤ op.level) : DerivesExpr s ts rest [.operation l o r] := by
  cases op with
  | equals | notEquals | less | lessEquals | greater | greaterEquals =>
    have hrel : o.kind.isRelational = true := by
      rw [← Option.some.inj ho]
      rfl
    have h := comparison (hl .additive (by decide) (by decide)) hrel
      (hr .additive (by decide) (by decide))
    exact h.loosen hs hle
  | add | subtract =>
    have hkind : o.kind = .plus ∨ o.kind = .dash := by simp [← Option.some.inj ho]
    have h := sum (hl .additive (by decide) (by decide)) hkind
      (hr .multiplicative (by decide) (by decide))
    exact h.loosen hs hle
  | multiply | divide | modulo =>
    have hkind : o.kind = .star ∨ o.kind = .slash ∨ o.kind = .percent := by
      simp [← Option.some.inj ho]
    have h := product (hl .multiplicative (by decide) (by decide)) hkind
      (hr .unary (by decide) (by decide))
    exact h.loosen hs hle
  | power =>
    have h := power (hl .suffixed (by decide) (by decide)) (Option.some.inj ho).symm
      (hr .unary (by decide) (by decide))
    exact h.loosen hs hle
  | coalesce => cases ho

theorem Literal.derives (value : Literal) (rest : List Terminal) :
    DerivesExpr .primary (value.terminal :: rest) rest [value.shape] := by
  cases value with
  | bool b => cases b <;> exact .atom rfl
  | _ => exact .atom rfl

namespace Expr

/-- The expression is read back, whatever follows, from every layer up to its level. -/
def ReadBack (e : Expr) : Prop :=
  ∃ ts, e.terminals? = some ts ∧ ∀ s rest, 0 < s.layer → s.layer ≤ e.level →
    DerivesExpr s (ts ++ rest) rest [e.shape]

theorem exists_exprs_of_readBack {es : List Expr} (h : ∀ e ∈ es, e.ReadBack) (hes : es ≠ []) :
    ∃ tss, terminalLists? es = some tss ∧ tss ≠ [] ∧
      ∀ rest, DerivesExpr .exprs (separated tss ++ rest) rest (shapes es) := by
  induction es with
  | nil => exact absurd rfl hes
  | cons e es ih =>
    obtain ⟨ts, hts, hd⟩ := h e (List.mem_cons_self ..)
    have he (rest : List Terminal) : DerivesExpr .expr (ts ++ rest) rest [e.shape] :=
      hd .expr rest (by decide) e.level_bounds.1
    cases es with
    | nil =>
      refine ⟨[ts], terminalLists?_cons_eq_some.2 ⟨ts, [], hts, rfl, rfl⟩, by simp, ?_⟩
      intro rest
      rw [separated_singleton]
      exact .one (he rest)
    | cons e' es =>
      obtain ⟨tss, htss, hne, hds⟩ := ih (fun x hx => h x (List.mem_cons_of_mem _ hx)) (by simp)
      refine ⟨ts :: tss, terminalLists?_cons_eq_some.2 ⟨ts, tss, hts, htss, rfl⟩, by simp, ?_⟩
      intro rest
      rw [separated_cons ts hne, List.append_assoc]
      exact .more (he _) rfl (hds rest)

theorem exists_arguments_of_readBack {es : List Expr} (h : ∀ e ∈ es, e.ReadBack) :
    ∃ tss, terminalLists? es = some tss ∧
      ∀ rest, DerivesExpr .arguments (separated tss ++ rest) rest (shapes es) := by
  cases es with
  | nil => exact ⟨[], rfl, fun rest => .noArguments⟩
  | cons e es =>
    obtain ⟨tss, htss, -, hds⟩ := exists_exprs_of_readBack h (List.cons_ne_nil e es)
    exact ⟨tss, htss, fun rest => .someArguments (hds rest)⟩

/-- An expression that needs no parentheses is derived from its terminals, with its own tree. -/
theorem NeedsNoParens.readBack {e : Expr} (h : e.NeedsNoParens) : e.ReadBack := by
  induction h with
  | @literal value =>
    refine ⟨[value.terminal], rfl, ?_⟩
    intro s rest hs hle
    exact (Literal.derives value rest).loosen hs (Nat.le_trans hle (Nat.le_succ 6))
  | @var v =>
    refine ⟨[⟨.identifier, v.name⟩], rfl, ?_⟩
    intro s rest hs hle
    exact (DerivesExpr.atom rfl).loosen hs (Nat.le_trans hle (Nat.le_succ 6))
  | @binary op left right t hop hl hr _ _ ihl ihr =>
    obtain ⟨ls, hls, hdl⟩ := ihl
    obtain ⟨rs, hrs, hdr⟩ := ihr
    obtain ⟨kind, hkind⟩ : ∃ kind, op.kind? = some kind := by
      cases op <;> first | exact ⟨_, rfl⟩ | exact absurd rfl hop
    refine ⟨_, terminals?_binary_eq_some.2 ⟨ls, kind, rs, hls, hkind, hrs, rfl⟩, ?_⟩
    intro s rest hs hle
    rw [List.append_assoc]
    exact .ofOperator (o := ⟨kind, op.symbol⟩) hkind
      (fun s' hs' hle' => hdl s' _ hs' (Nat.le_trans hle' hl))
      (fun s' hs' hle' => hdr s' rest hs' (Nat.le_trans hle' hr)) hs hle
  | @negate operand t _ ih =>
    obtain ⟨ts, hts, hd⟩ := ih
    refine ⟨_, terminals?_negate_eq_some.2 ⟨ts, hts, rfl⟩, ?_⟩
    intro s rest hs hle
    refine DerivesExpr.loosen (s := .unary) ?_ hs hle
    refine .sign (.inl rfl) ?_
    show DerivesExpr .unary (negated operand ts ++ rest) rest [operand.shape]
    rcases negated_cases operand ts with ⟨-, hnegated⟩ | ⟨hlevel, hnegated⟩
    · rw [hnegated, parenthesized_append]
      refine DerivesExpr.loosen (s := .primary) ?_ (by decide) (by decide)
      exact .group rfl (hd .expr _ (by decide) operand.level_bounds.1) rfl
    · rw [hnegated]
      exact hd .unary rest (by decide) hlevel
  | @not operand t hlevel _ ih =>
    obtain ⟨ts, hts, hd⟩ := ih
    refine ⟨_, terminals?_not_eq_some.2 ⟨ts, hts, rfl⟩, ?_⟩
    intro s rest hs hle
    refine DerivesExpr.loosen (s := .unary) ?_ hs hle
    exact .sign (.inr rfl) (hd .unary rest (by decide) hlevel)
  | @array elements t _ ih =>
    obtain ⟨tss, htss, hds⟩ := exists_arguments_of_readBack ih
    refine ⟨_, terminals?_array_eq_some.2 ⟨tss, htss, rfl⟩, ?_⟩
    intro s rest hs hle
    refine DerivesExpr.loosen (s := .primary) ?_ hs (Nat.le_trans hle (Nat.le_succ 6))
    rw [bracketed_append]
    exact .array rfl (hds _) rfl
  | @subscript base index t hlevel _ _ ihb ihi =>
    obtain ⟨bs, hbs, hdb⟩ := ihb
    obtain ⟨is, his, hdi⟩ := ihi
    refine ⟨_, terminals?_subscript_eq_some.2 ⟨bs, is, hbs, his, rfl⟩, ?_⟩
    intro s rest hs hle
    refine DerivesExpr.loosen (s := .suffixed) ?_ hs hle
    rw [List.append_assoc, bracketed_append]
    exact .subscript (hdb .suffixed _ (by decide) (Nat.le_of_eq hlevel.symm)) rfl
      (hdi .expr _ (by decide) index.level_bounds.1) rfl
  | @call args name t _ ih =>
    obtain ⟨tss, htss, hds⟩ := exists_arguments_of_readBack ih
    refine ⟨_, terminals?_call_eq_some.2 ⟨tss, htss, rfl⟩, ?_⟩
    intro s rest hs hle
    refine DerivesExpr.loosen (s := .suffixed) ?_ hs hle
    rw [List.cons_append, parenthesized_append]
    exact .call (.ofPrimary (.atom rfl)) rfl rfl (hds _) rfl

end Expr

end

/-! ## The form of an expression, from its tree -/

theorem Literal.shape_ne_branch (value : Literal) {rule : Rule} {ss : List Shape} :
    value.shape ≠ .branch rule ss := by
  cases value with
  | bool b => cases b <;> exact nofun
  | _ => exact nofun

namespace Expr

variable {e : Expr} {l r : Shape} {ss : List Shape} {rule : Rule} {text : String}

/-- A tree of an operation comes from an operation. -/
theorem exists_of_shape_eq_binary (h : e.shape = .branch .binary [l, .leaf .op text, r]) :
    ∃ op left right t, e = binary op left right t ∧ left.shape = l ∧ op.symbol = text ∧
      right.shape = r := by
  cases e with
  | literal value => exact absurd h value.shape_ne_branch
  | binary op left right t =>
    simp only [shape, Shape.branch.injEq, Shape.leaf.injEq, List.cons.injEq, and_true,
      true_and] at h
    exact ⟨op, left, right, t, rfl, h⟩
  | _ => cases h

theorem exists_of_shape_eq_unary (h : e.shape = .branch .unary [.leaf .op text, r]) :
    ∃ op operand t, e = unary op operand t ∧ op.symbol = text ∧ operand.shape = r := by
  cases e with
  | literal value => exact absurd h value.shape_ne_branch
  | unary op operand t =>
    simp only [shape, Shape.branch.injEq, Shape.leaf.injEq, List.cons.injEq, and_true,
      true_and] at h
    exact ⟨op, operand, t, rfl, h⟩
  | _ => cases h

theorem exists_of_shape_eq_subscript (h : e.shape = .branch .subscript [l, r]) :
    ∃ base index t, e = subscript base index t ∧ base.shape = l ∧ index.shape = r := by
  cases e with
  | literal value => exact absurd h value.shape_ne_branch
  | subscript base index t =>
    cases h
    exact ⟨base, index, t, rfl, rfl, rfl⟩
  | _ => cases h

theorem exists_of_shape_eq_call (h : e.shape = .branch .call (l :: ss)) :
    ∃ name args t, e = call name args t ∧ .leaf .id name = l ∧ shapes args = ss := by
  cases e with
  | literal value => exact absurd h value.shape_ne_branch
  | call name args t =>
    cases h
    exact ⟨name, args, t, rfl, rfl, rfl⟩
  | _ => cases h

theorem exists_of_shape_eq_arrayLit (h : e.shape = .branch .arrayLit ss) :
    ∃ elements t, e = array elements t ∧ shapes elements = ss := by
  cases e with
  | literal value => exact absurd h value.shape_ne_branch
  | array elements t =>
    cases h
    exact ⟨elements, t, rfl, rfl⟩
  | _ => cases h

theorem needsNoParens_of_shape_eq_leaf (h : e.shape = .leaf rule text) :
    e.NeedsNoParens ∧ e.level = 6 := by
  cases e with
  | literal value => exact ⟨.literal, rfl⟩
  | var v => exact ⟨.var, rfl⟩
  | _ => cases h

end Expr

/-! ## What is read back needs no parentheses -/

theorem BinaryOp.isSolid_of_kind? (op : BinaryOp) {kind : TokenKind} (h : op.kind? = some kind) :
    Terminal.isSolid ⟨kind, op.symbol⟩ = true := by
  cases op <;> cases h <;> rfl

section

open Terminal

variable {s : ExprSymbol} {ts us vs rest : List Terminal} {l r : Shape} {o : Terminal} {e : Expr}

namespace Expr

theorem counts_separated {es : List Expr} {tss : List (List Terminal)}
    (ih : ∀ e ∈ es, ∀ {ts}, e.terminals? = some ts → ∀ rest, Counts (ts ++ rest) rest [e.shape])
    (h : terminalLists? es = some tss) (rest : List Terminal) :
    Counts (separated tss ++ rest) rest (shapes es) := by
  induction es generalizing tss with
  | nil =>
    cases h
    exact ⟨rfl, Nat.add_comm ..⟩
  | cons e es ihs =>
    obtain ⟨ts, uss, hts, huss, rfl⟩ := terminalLists?_cons_eq_some.1 h
    have he := ih e (List.mem_cons_self ..) hts
    have hes := ihs (fun x hx => ih x (List.mem_cons_of_mem _ hx)) huss
    cases es with
    | nil =>
      cases huss
      rw [separated_singleton]
      exact he rest
    | cons e' es =>
      obtain ⟨ts', uss', -, -, rfl⟩ := terminalLists?_cons_eq_some.1 huss
      rw [separated_cons ts (by simp), List.append_assoc]
      exact (he _).more rfl hes (by simp [shapes])

/-- The terminals that an expression is written with are counted by its tree. -/
theorem counts_terminals (h : e.terminals? = some ts) (rest : List Terminal) :
    Counts (ts ++ rest) rest [e.shape] := by
  induction e using Expr.induction generalizing ts rest with
  | literal value =>
    cases h
    exact (Literal.derives value rest).counts
  | var v =>
    cases h
    exact (DerivesExpr.atom rfl).counts
  | binary op left right t ihl ihr =>
    obtain ⟨ls, kind, rs, hls, hkind, hrs, rfl⟩ := terminals?_binary_eq_some.1 h
    rw [List.append_assoc]
    exact (ihl hls _).operation (op.isSolid_of_kind? hkind) (ihr hrs rest)
  | unary op operand t ih =>
    cases op with
    | negate =>
      obtain ⟨us, hus, rfl⟩ := terminals?_negate_eq_some.1 h
      refine .sign rfl ?_
      show Counts (negated operand us ++ rest) rest [operand.shape]
      rcases negated_cases operand us with ⟨-, hnegated⟩ | ⟨-, hnegated⟩
      · rw [hnegated, parenthesized_append]
        exact .group rfl (ih hus _) rfl
      · rw [hnegated]
        exact ih hus rest
    | not =>
      obtain ⟨us, hus, rfl⟩ := terminals?_not_eq_some.1 h
      exact .sign rfl (ih hus rest)
  | array elements t ih =>
    obtain ⟨tss, htss, rfl⟩ := terminals?_array_eq_some.1 h
    rw [bracketed_append]
    exact .array rfl (counts_separated ih htss _) rfl
  | subscript base index t ihb ihi =>
    obtain ⟨bs, is, hbs, his, rfl⟩ := terminals?_subscript_eq_some.1 h
    rw [List.append_assoc, bracketed_append]
    exact (ihb hbs _).subscript rfl (ihi his _) rfl
  | call name args t ih =>
    obtain ⟨tss, htss, rfl⟩ := terminals?_call_eq_some.1 h
    rw [List.cons_append, parenthesized_append]
    exact .call (DerivesExpr.atom rfl).counts rfl (counts_separated ih htss _) rfl

/-- An expression is written with as many terminals as its tree tells, parentheses apart. -/
theorem solid_terminals (h : e.terminals? = some ts) : solid ts = e.shape.weight := by
  have hcounts := (counts_terminals h []).1
  simpa [solid, Shape.weights] using hcounts

theorem opened_terminals (h : e.terminals? = some ts) : opened ts = closed ts := by
  have hcounts := (counts_terminals h []).2
  simpa [opened, closed] using hcounts

/-- No expression is written with a parenthesis in front. -/
theorem head_terminals (h : e.terminals? = some ts) :
    ∃ t us, ts = t :: us ∧ t.kind ≠ .openParen := by
  induction e using Expr.induction generalizing ts with
  | literal value =>
    cases h
    refine ⟨_, [], rfl, ?_⟩
    cases value with
    | bool b => cases b <;> simp [Literal.terminal]
    | _ => simp [Literal.terminal]
  | var v =>
    cases h
    exact ⟨_, [], rfl, by simp⟩
  | binary op left right t ihl ihr =>
    obtain ⟨ls, kind, rs, hls, hkind, hrs, rfl⟩ := terminals?_binary_eq_some.1 h
    obtain ⟨x, us, rfl, hx⟩ := ihl hls
    exact ⟨x, _, rfl, hx⟩
  | unary op operand t ih =>
    cases op with
    | negate =>
      obtain ⟨us, hus, rfl⟩ := terminals?_negate_eq_some.1 h
      exact ⟨_, _, rfl, by simp⟩
    | not =>
      obtain ⟨us, hus, rfl⟩ := terminals?_not_eq_some.1 h
      exact ⟨_, _, rfl, by simp⟩
  | array elements t ih =>
    obtain ⟨tss, htss, rfl⟩ := terminals?_array_eq_some.1 h
    exact ⟨_, _, rfl, by simp⟩
  | subscript base index t ihb ihi =>
    obtain ⟨bs, is, hbs, his, rfl⟩ := terminals?_subscript_eq_some.1 h
    obtain ⟨x, us, rfl, hx⟩ := ihb hbs
    exact ⟨x, _, rfl, hx⟩
  | call name args t ih =>
    obtain ⟨tss, htss, rfl⟩ := terminals?_call_eq_some.1 h
    exact ⟨_, _, rfl, by simp⟩

end Expr

/-- The derivation keeps what it groups: an expression with the terminals and the tree needs no
parentheses and binds as tightly as the layer, and so does the inside of an operation in
parentheses. -/
def KeepsLayer (s : ExprSymbol) (us rest : List Terminal) (ss : List Shape) : Prop :=
  ∀ ⦃e : Expr⦄ ⦃ts⦄, e.terminals? = some ts → [e.shape] = ss →
    (us = ts ++ rest → e.NeedsNoParens ∧ min s.layer 6 ≤ e.level) ∧
    (e.isOperation = true → us = parenthesized ts ++ rest → e.NeedsNoParens)

def KeepsList (us rest : List Terminal) (ss : List Shape) : Prop :=
  ∀ ⦃es : List Expr⦄ ⦃tss⦄, Expr.terminalLists? es = some tss → Expr.shapes es = ss →
    us = separated tss ++ rest → ∀ e ∈ es, e.NeedsNoParens

def Keeps : ExprSymbol → List Terminal → List Terminal → List Shape → Prop
  | .exprs, us, rest, ss | .arguments, us, rest, ss => KeepsList us rest ss
  | s, us, rest, ss => KeepsLayer s us rest ss

theorem KeepsLayer.loosen {s s' : ExprSymbol} {ss : List Shape} (h : KeepsLayer s us rest ss)
    (hle : s'.layer ≤ s.layer) : KeepsLayer s' us rest ss := by
  intro e ts hts hshape
  obtain ⟨hbare, hgroup⟩ := h hts hshape
  refine ⟨?_, hgroup⟩
  intro hus
  obtain ⟨he, hlevel⟩ := hbare hus
  exact ⟨he, by omega⟩

/-- The derivation of a left operand stops at the operator that was written. -/
theorem eq_operator {left : Expr} {ls pre ws : List Terminal} {t : Terminal}
    (hl : DerivesExpr s (pre ++ ls ++ t :: ws) (o :: vs) [left.shape])
    (hls : left.terminals? = some ls) (hpre : solid pre = 0) (ht : t.isSolid = true)
    (ho : o.isSolid = true) : t = o ∧ ws = vs := by
  refine hl.split ht ho ?_
  rw [solid_append, hpre, Expr.solid_terminals hls, Nat.zero_add]

/-- Both sides of an operation are found in the terminals by their number, and each is of the layer
that the grammar gives it. -/
theorem KeepsLayer.operation {s sl sr : ExprSymbol}
    (hl : DerivesExpr sl us (o :: vs) [l]) (ho : o.isSolid = true)
    (ihl : KeepsLayer sl us (o :: vs) [l]) (ihr : KeepsLayer sr vs rest [r])
    (hop : ∀ op : BinaryOp, op.kind? = some o.kind → op.leftLevel ≤ min sl.layer 6 ∧
      op.rightLevel ≤ min sr.layer 6 ∧ min s.layer 6 ≤ op.level) :
    KeepsLayer s us rest [.operation l o r] := by
  intro e ts hts hshape
  obtain ⟨op, left, right, t, rfl, rfl, hsymbol, rfl⟩ :=
    Expr.exists_of_shape_eq_binary (List.singleton_inj.1 hshape)
  obtain ⟨ls, kind, rs, hls, hkind, hrs, rfl⟩ := Expr.terminals?_binary_eq_some.1 hts
  have hsolid := op.isSolid_of_kind? hkind
  constructor
  · intro hus
    obtain rfl : us = [] ++ ls ++ ⟨kind, op.symbol⟩ :: (rs ++ rest) := by simpa using hus
    obtain ⟨rfl, rfl⟩ := eq_operator hl hls rfl hsolid ho
    obtain ⟨hleft, hleftLevel⟩ := (ihl hls rfl).1 rfl
    obtain ⟨hright, hrightLevel⟩ := (ihr hrs rfl).1 rfl
    obtain ⟨hopLeft, hopRight, hlevel⟩ := hop op hkind
    have hcoalesce : op ≠ .coalesce := by
      intro h
      rw [h] at hkind
      cases hkind
    exact ⟨.binary hcoalesce (Nat.le_trans hopLeft hleftLevel) (Nat.le_trans hopRight hrightLevel)
      hleft hright, hlevel⟩
  · intro _ hus
    obtain rfl : us = [⟨.openParen, "("⟩] ++ ls ++ ⟨kind, op.symbol⟩ ::
        (rs ++ ⟨.closeParen, ")"⟩ :: rest) := by
      simpa [parenthesized] using hus
    obtain ⟨rfl, rfl⟩ := eq_operator hl hls rfl hsolid ho
    -- The left operand begins with a parenthesis that it does not close.
    have hopened : opened [⟨.openParen, "("⟩] = 1 := rfl
    have hclosed : closed [⟨.openParen, "("⟩] = 0 := rfl
    have hbalance := hl.counts.2
    have hleft := Expr.opened_terminals hls
    simp only [opened_append, closed_append] at hbalance
    omega

theorem KeepsLayer.sign (ih : KeepsLayer .unary us rest [r]) :
    KeepsLayer .unary (o :: us) rest [.branch .unary [.leaf .op o.value, r]] := by
  intro e ts hts hshape
  obtain ⟨op, operand, t, rfl, hsymbol, rfl⟩ :=
    Expr.exists_of_shape_eq_unary (List.singleton_inj.1 hshape)
  constructor
  · intro hus
    cases op with
    | negate =>
      obtain ⟨xs, hxs, rfl⟩ := Expr.terminals?_negate_eq_some.1 hts
      obtain ⟨rfl, rfl⟩ := List.cons.inj hus
      obtain ⟨hbare, hgroup⟩ := ih hxs rfl
      rcases Expr.negated_cases operand xs with ⟨hoperation, hnegated⟩ | ⟨-, hnegated⟩
      · rw [hnegated] at hgroup
        exact ⟨.negate (hgroup hoperation rfl), Nat.le_refl 4⟩
      · rw [hnegated] at hbare
        exact ⟨.negate (hbare rfl).1, Nat.le_refl 4⟩
    | not =>
      obtain ⟨xs, hxs, rfl⟩ := Expr.terminals?_not_eq_some.1 hts
      obtain ⟨rfl, rfl⟩ := List.cons.inj hus
      obtain ⟨hoperand, hlevel⟩ := (ih hxs rfl).1 rfl
      exact ⟨.not hlevel hoperand, Nat.le_refl 4⟩
  · intro hop
    cases hop

theorem KeepsLayer.subscript {c : Terminal} (hb : DerivesExpr .suffixed us (o :: vs) [l])
    (ho : o.kind = .openBracket) (hi : DerivesExpr .expr vs (c :: rest) [r])
    (ihb : KeepsLayer .suffixed us (o :: vs) [l]) (ihi : KeepsLayer .expr vs (c :: rest) [r]) :
    KeepsLayer .suffixed us rest [.branch .subscript [l, r]] := by
  intro e ts hts hshape
  obtain ⟨base, index, t, rfl, rfl, rfl⟩ :=
    Expr.exists_of_shape_eq_subscript (List.singleton_inj.1 hshape)
  obtain ⟨bs, is, hbs, his, rfl⟩ := Expr.terminals?_subscript_eq_some.1 hts
  constructor
  · intro hus
    obtain rfl : us = [] ++ bs ++ ⟨.openBracket, "["⟩ :: (is ++ ⟨.closeBracket, "]"⟩ :: rest) := by
      simpa [bracketed] using hus
    obtain ⟨rfl, rfl⟩ := eq_operator hb hbs rfl rfl (isSolid_of_kind ho rfl)
    obtain rfl := hi.eq_last
    obtain ⟨hbase, hlevel⟩ := (ihb hbs rfl).1 rfl
    have hindex := ((ihi his rfl).1 rfl).1
    exact ⟨.subscript (Nat.le_antisymm base.level_bounds.2 hlevel) hbase hindex, Nat.le_refl 6⟩
  · intro hop
    cases hop

theorem KeepsLayer.call {c : Terminal} {args : List Shape}
    (hf : DerivesExpr .suffixed us (o :: vs) [l]) (ha : DerivesExpr .arguments vs (c :: rest) args)
    (iha : KeepsList vs (c :: rest) args) :
    KeepsLayer .suffixed us rest [.branch .call (l :: args)] := by
  intro e ts hts hshape
  obtain ⟨name, es, t, rfl, rfl, rfl⟩ := Expr.exists_of_shape_eq_call (List.singleton_inj.1 hshape)
  obtain ⟨tss, htss, rfl⟩ := Expr.terminals?_call_eq_some.1 hts
  constructor
  · intro hus
    rw [List.cons_append, parenthesized_append] at hus
    subst hus
    cases hf with
    | ofPrimary hf =>
      cases hf with
      | atom =>
        obtain rfl := ha.eq_last
        exact ⟨.call (iha htss rfl rfl), Nat.le_refl 6⟩
      | group hk => cases hk
  · intro hop
    cases hop

theorem KeepsLayer.array {c : Terminal} {ss : List Shape}
    (hd : DerivesExpr .arguments us (c :: rest) ss) (ih : KeepsList us (c :: rest) ss) :
    KeepsLayer .primary (o :: us) rest [.branch .arrayLit ss] := by
  intro e ts hts hshape
  obtain ⟨es, t, rfl, rfl⟩ := Expr.exists_of_shape_eq_arrayLit (List.singleton_inj.1 hshape)
  obtain ⟨tss, htss, rfl⟩ := Expr.terminals?_array_eq_some.1 hts
  constructor
  · intro hus
    rw [bracketed_append] at hus
    obtain ⟨rfl, rfl⟩ := List.cons.inj hus
    obtain rfl := hd.eq_last
    exact ⟨.array (ih htss rfl rfl), Nat.le_refl 6⟩
  · intro hop
    cases hop

theorem KeepsLayer.atom {rule : Rule} {text : String} :
    KeepsLayer .primary us rest [.leaf rule text] := by
  intro e ts _ hshape
  obtain ⟨he, hlevel⟩ := Expr.needsNoParens_of_shape_eq_leaf (List.singleton_inj.1 hshape)
  exact ⟨fun _ => ⟨he, Nat.le_of_eq hlevel.symm⟩, fun _ _ => he⟩

/-- Parentheses stand around operations only, and in front of no expression. -/
theorem KeepsLayer.group {c : Terminal} (ho : o.kind = .openParen)
    (hd : DerivesExpr .expr us (c :: rest) [r]) (ih : KeepsLayer .expr us (c :: rest) [r]) :
    KeepsLayer .primary (o :: us) rest [r] := by
  intro e ts hts hshape
  constructor
  · intro hus
    obtain ⟨t, xs, rfl, ht⟩ := Expr.head_terminals hts
    obtain ⟨rfl, -⟩ := List.cons.inj hus
    exact absurd ho ht
  · intro _ hus
    rw [parenthesized_append] at hus
    obtain ⟨rfl, rfl⟩ := List.cons.inj hus
    obtain rfl := hd.eq_last
    exact ((ih hts hshape).1 rfl).1

theorem KeepsList.one (ih : KeepsLayer .expr us rest [r]) : KeepsList us rest [r] := by
  intro es tss htss hshapes hus e he
  match es with
  | [] => cases hshapes
  | [x] =>
    obtain ⟨ts, uss, hts, huss, rfl⟩ := Expr.terminalLists?_cons_eq_some.1 htss
    cases huss
    cases List.mem_singleton.1 he
    rw [separated_singleton] at hus
    exact ((ih hts hshapes).1 hus).1
  | x :: y :: es => cases hshapes

theorem KeepsList.more {c : Terminal} {ss : List Shape} (hd : DerivesExpr .expr us (c :: vs) [r])
    (hc : c.kind = .comma) (hds : DerivesExpr .exprs vs rest ss)
    (ih : KeepsLayer .expr us (c :: vs) [r]) (ihs : KeepsList vs rest ss) :
    KeepsList us rest (r :: ss) := by
  intro es tss htss hshapes hus e he
  cases es with
  | nil => cases hshapes
  | cons x es =>
    obtain ⟨ts, uss, hts, huss, rfl⟩ := Expr.terminalLists?_cons_eq_some.1 htss
    obtain ⟨rfl, rfl⟩ := List.cons.inj hshapes
    have hne : uss ≠ [] := by
      cases es with
      | nil => exact absurd rfl hds.exprs_ne_nil
      | cons y es =>
        obtain ⟨vs, vss, -, -, rfl⟩ := Expr.terminalLists?_cons_eq_some.1 huss
        exact List.cons_ne_nil vs vss
    obtain rfl : us = [] ++ ts ++ ⟨.comma, ","⟩ :: (separated uss ++ rest) := by
      simpa [separated_cons ts hne] using hus
    obtain ⟨rfl, rfl⟩ := eq_operator hd hts rfl rfl (isSolid_of_kind hc rfl)
    rcases List.mem_cons.1 he with rfl | he
    · exact ((ih hts rfl).1 rfl).1
    · exact ihs huss rfl rfl e he

/-- Where the terminals of an expression are derived with its own tree, no parentheses were needed.
-/
theorem DerivesExpr.keeps {ss : List Shape} (h : DerivesExpr s us rest ss) :
    Keeps s us rest ss := by
  induction h with
  | ofAdditive _ ih => exact KeepsLayer.loosen (s := .additive) ih (by decide)
  | ofMultiplicative _ ih => exact KeepsLayer.loosen (s := .multiplicative) ih (by decide)
  | ofUnary _ ih => exact KeepsLayer.loosen (s := .unary) ih (by decide)
  | ofPower _ ih => exact KeepsLayer.loosen (s := .power) ih (by decide)
  | ofSuffixed _ ih => exact KeepsLayer.loosen (s := .suffixed) ih (by decide)
  | ofPrimary _ ih => exact KeepsLayer.loosen (s := .primary) ih (by decide)
  | comparison h hk _ ih ih' =>
    refine KeepsLayer.operation h (isSolid_of_isRelational hk) ih ih' ?_
    intro op hop
    generalize Terminal.kind _ = k at hk hop
    cases op <;> cases hop <;> first | cases hk; done | decide
  | sum h hk _ ih ih' =>
    refine KeepsLayer.operation h ?_ ih ih' ?_
    · rcases hk with hk | hk <;> exact isSolid_of_kind hk rfl
    · intro op hop
      rcases hk with hk | hk <;> rw [hk] at hop <;> cases op <;> cases hop <;> decide
  | product h hk _ ih ih' =>
    refine KeepsLayer.operation h ?_ ih ih' ?_
    · rcases hk with hk | hk | hk <;> exact isSolid_of_kind hk rfl
    · intro op hop
      rcases hk with hk | hk | hk <;> rw [hk] at hop <;> cases op <;> cases hop <;> decide
  | power h hk _ ih ih' =>
    refine KeepsLayer.operation h (isSolid_of_kind hk rfl) ih ih' ?_
    intro op hop
    rw [hk] at hop
    cases op <;> cases hop
    decide
  | sign _ _ ih => exact KeepsLayer.sign ih
  | subscript h hk h' _ ih ih' => exact KeepsLayer.subscript h hk h' ih ih'
  | call h _ _ h' _ _ ih' => exact KeepsLayer.call h h' ih'
  | atom => exact KeepsLayer.atom
  | group hk h _ ih => exact KeepsLayer.group hk h ih
  | array _ h _ ih => exact KeepsLayer.array h ih
  | one _ ih => exact KeepsList.one ih
  | more h hc hs ih ihs => exact KeepsList.more h hc hs ih ihs
  | noArguments =>
    intro es tss _ hshapes _ e he
    cases es with
    | nil => cases he
    | cons x es => cases hshapes
  | someArguments _ ih => exact ih

end

/-! ## Scripts that are read back -/

/-- The script of the expression can be scanned, and all of it is read as an expression with the
tree of the one that was written. -/
def Expr.RoundTrips (e : Expr) (file : Option String) : Prop :=
  ∃ tokens node c, tokenize (e.script .empty) file = .ok tokens ∧
    Parser.solve ⟨.standard, (e.script .empty).toList⟩ (.expr .default) (.ofTokens tokens) =
      .ok node c ∧
    c.kind = .endOfText ∧ node.shape = e.shape

/-- Scripts are read back as they were if and only if no parentheses are missing. -/
theorem roundTrips_iff_needsNoParens {e : Expr} (h : e.Plain) (file : Option String) :
    e.RoundTrips file ↔ e.NeedsNoParens := by
  constructor
  · intro hround
    obtain ⟨tokens, node, c, htokens, hread, hend, hshape⟩ := hround
    have hterminals := (tokenize_eq_ok_iff file).1 ⟨tokens, htokens, rfl⟩
    rw [← Expr.text, h.terminals?_text] at hterminals
    obtain ⟨ts, hts, hmap⟩ := Option.map_eq_some_iff.1 hterminals
    obtain ⟨t, hd, -⟩ := (solve_expr_iff_derives (tokenize_coherent htokens).1 _ e.shape).1
      ⟨node, c, hread, hend, hshape⟩
    rw [← hmap] at hd
    obtain rfl := hd.eq_last
    exact ((hd.keeps hts rfl).1 rfl).1
  · intro he
    obtain ⟨ts, hts, hd⟩ := he.readBack
    have hterminals : terminals? e.text = some (ts ++ [.endOfText]) := by
      rw [h.terminals?_text, hts]
      rfl
    obtain ⟨tokens, htokens, hmap⟩ := (tokenize_eq_ok_iff file).2 hterminals
    have hderives := hd .expr [.endOfText] (by decide) e.level_bounds.1
    rw [← hmap] at hderives
    obtain ⟨node, c, hread, hend, hshape⟩ := (solve_expr_iff_derives (tokenize_coherent htokens).1
      (e.script .empty) e.shape).2 ⟨_, hderives, rfl⟩
    exact ⟨tokens, node, c, htokens, hread, hend, hshape⟩

/-- The comparison `- -a * f(x, "\"\n")[2n] ** -(b + 3n) == !true`. -/
def mixedComparison : Expr :=
  .binary .equals
    (.binary .multiply
      (.unary .negate (.unary .negate (.var ⟨"a", .num⟩) .num) .num)
      (.binary .power
        (.subscript
          (.call "f" [.var ⟨"x", .num⟩, .literal (.str "\"\n")] (.array .num))
          (.literal (.bigInt ⟨2, by decide, by decide⟩)) .num)
        (.unary .negate
          (.binary .add (.var ⟨"b", .num⟩) (.literal (.bigInt ⟨3, by decide, by decide⟩)) .num)
          .num)
        .num)
      .num)
    (.unary .not (.literal (.bool true)) .bool) .bool

/-- The product of `a + b` and `c`, which is written as `a + b * c`. -/
def productOfSum : Expr :=
  .binary .multiply (.binary .add (.var ⟨"a", .num⟩) (.var ⟨"b", .num⟩) .num) (.var ⟨"c", .num⟩)
    .num

theorem roundTrips_mixedComparison :
    mixedComparison.Plain ∧ mixedComparison.RoundTrips none ∧
      productOfSum.Plain ∧ ¬productOfSum.RoundTrips none := by
  have ha : IsName "a" := ⟨'a', [], rfl, rfl, nofun, rfl⟩
  have hb : IsName "b" := ⟨'b', [], rfl, rfl, nofun, rfl⟩
  have hc : IsName "c" := ⟨'c', [], rfl, rfl, nofun, rfl⟩
  have hf : IsName "f" := ⟨'f', [], rfl, rfl, nofun, rfl⟩
  have hx : IsName "x" := ⟨'x', [], rfl, rfl, nofun, rfl⟩
  have hstring : (Literal.str "\"\n").Plain := by
    intro c hc _
    simp at hc
    rcases hc with rfl | rfl
    · contradiction
    · exact .inr (.inl rfl)
  have hargs : ∀ e ∈ [Expr.var ⟨"x", .num⟩, .literal (.str "\"\n")], e.Plain ∧ e.NeedsNoParens := by
    intro e he
    simp only [List.mem_cons, List.not_mem_nil, or_false] at he
    rcases he with rfl | rfl
    · exact ⟨.var hx, .var⟩
    · exact ⟨.literal hstring, .literal⟩
  have hplain : mixedComparison.Plain :=
    .binary
      (.binary (.unary (.unary (.var ha)))
        (.binary (.subscript (.call hf fun e he => (hargs e he).1)
          (.literal (Int.natCast_nonneg 2)))
          (.unary (.binary (.var hb) (.literal (Int.natCast_nonneg 3))))))
      (.unary (.literal trivial))
  have hproduct : productOfSum.Plain := .binary (.binary (.var ha) (.var hb)) (.var hc)
  have hbare : mixedComparison.NeedsNoParens :=
    .binary (by decide) (by decide) (by decide)
      (.binary (by decide) (by decide) (by decide) (.negate (.negate .var))
        (.binary (by decide) (by decide) (by decide)
          (.subscript rfl (.call fun e he => (hargs e he).2) .literal)
          (.negate (.binary (by decide) (by decide) (by decide) .var .literal))))
      (.not (by decide) .literal)
  refine ⟨hplain, (roundTrips_iff_needsNoParens hplain none).2 hbare, hproduct, ?_⟩
  intro hround
  cases (roundTrips_iff_needsNoParens hproduct none).1 hround with
  | binary _ hleft => exact absurd hleft (by decide)

end Scriptlet
