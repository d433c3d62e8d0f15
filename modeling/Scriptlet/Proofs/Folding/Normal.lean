import Mathlib.Algebra.Group.Int.Defs
import Scriptlet.Program.Equality
import Scriptlet.Proofs.Folding.Preservation

/-!
One pass of folding is enough. A redex is an operation that folding would change where it stands;
what is redex is said here without the functions that fold. The operands of an operation are folded
before it is looked at, and whatever replaces it is a literal, an operand, or an operation that is no
redex over them. So a folded program has no redex left, and a program without one stays as it is.

Of floats nothing is used: that an operation on them has a result is all that matters.
-/

namespace Scriptlet

/-! ## What can be computed -/

/-- The exact result of an operation on integers, quotients toward zero. -/
def BinaryOp.exactly : BinaryOp → Int → Int → Option Int
  | add, a, b => some (a + b)
  | subtract, a, b => some (a - b)
  | multiply, a, b => some (a * b)
  | divide, a, b => if b = 0 then none else some (a.tdiv b)
  | _, _, _ => none

/-- The integer fits into 128 bits. -/
def Int128.Fits (n : Int) : Prop := -2 ^ 127 ≤ n ∧ n < 2 ^ 127

theorem Int128.isSome_ofInt?_iff {n : Int} : (ofInt? n).isSome ↔ Fits n := by
  rw [Fits, ofInt?]
  split
  · next h => exact iff_of_true rfl h
  · next h => exact iff_of_false Bool.false_ne_true h

namespace Literal

/-- A number of either kind. -/
def isNumeric : Literal → Bool
  | number _ | bigInt _ => true
  | _ => false

/-- The operation has a literal for its result: one of its operands is a float, or both are integers
and the exact result fits. -/
inductive Computes (op : BinaryOp) : Literal → Literal → Prop where
  | floatLeft : op.isComputed = true → b.isNumeric = true → Computes op (.number x) b
  | floatRight : op.isComputed = true → a.isNumeric = true → Computes op a (.number y)
  | exact : op.exactly a.val b.val = some n → Int128.Fits n → Computes op (.bigInt a) (.bigInt b)

variable {op : BinaryOp} {a b : Literal}

theorem isNumeric_of_isZero (h : a.isZero = true) : a.isNumeric = true := by
  cases a with
  | number | bigInt => rfl
  | _ => cases h

theorem isSome_toFloat?_iff : a.toFloat?.isSome ↔ a.isNumeric = true := by
  cases a <;> simp [toFloat?, isNumeric]

theorem isSome_floatArithmetic?_iff {x y : Float} :
    (floatArithmetic? op x y).isSome ↔ op.isComputed = true := by
  cases op <;> simp [floatArithmetic?, BinaryOp.isComputed]

theorem isSome_wideArithmetic?_iff {a b : Int128} :
    (wideArithmetic? op a b).isSome ↔ ∃ n, op.exactly a.val b.val = some n ∧ Int128.Fits n := by
  cases op with
  | add | subtract | multiply =>
    simp [wideArithmetic?, Int128.add?, Int128.sub?, Int128.mul?, BinaryOp.exactly,
      Int128.isSome_ofInt?_iff]
  | divide =>
    rw [wideArithmetic?, Int128.div?, BinaryOp.exactly]
    split
    · simp
    · simp [Int128.isSome_ofInt?_iff]
  | _ => simp [wideArithmetic?, BinaryOp.exactly]

/-- Arithmetic with a float among the operands is done on floats. -/
theorem isSome_floatOperands_iff :
    (do return number (← floatArithmetic? op (← a.toFloat?) (← b.toFloat?))).isSome ↔
      op.isComputed = true ∧ a.isNumeric = true ∧ b.isNumeric = true := by
  rw [← isSome_toFloat?_iff, ← isSome_toFloat?_iff]
  cases a.toFloat? with
  | none => simp
  | some x =>
    cases b.toFloat? with
    | none => simp
    | some y =>
      rw [← isSome_floatArithmetic?_iff (x := x) (y := y)]
      cases h : floatArithmetic? op x y <;> simp [h]

/-- When an operation on two literals is computed. -/
theorem isSome_arithmetic?_iff : (arithmetic? op a b).isSome ↔ Computes op a b := by
  unfold arithmetic?
  split
  · rw [Option.isSome_map, isSome_wideArithmetic?_iff]
    constructor
    · intro h
      obtain ⟨n, hn, hfits⟩ := h
      exact .exact hn hfits
    · intro h
      cases h with
      | exact hn hfits => exact ⟨_, hn, hfits⟩
  · next hwide =>
    rw [isSome_floatOperands_iff]
    constructor
    · intro h
      obtain ⟨hop, ha, hb⟩ := h
      cases a with
      | number => exact .floatLeft hop hb
      | bigInt a =>
        cases b with
        | number => exact .floatRight hop ha
        | bigInt b => exact absurd rfl (hwide a b rfl)
        | _ => cases hb
      | _ => cases ha
    · intro h
      cases h with
      | floatLeft hop hb => exact ⟨hop, rfl, hb⟩
      | floatRight hop ha => exact ⟨hop, ha, rfl⟩
      | exact => exact absurd rfl (hwide _ _ rfl)

/-- Every number has an opposite but the least integer. -/
theorem isSome_negate?_iff :
    a.negate?.isSome ↔ (∃ x, a = .number x) ∨ ∃ n, a = .bigInt n ∧ n.val ≠ -2 ^ 127 := by
  cases a with
  | number x => simp [negate?]
  | bigInt n =>
    have hle := n.le_val
    have hlt := n.val_lt
    simp only [negate?, Option.isSome_map, Int128.neg?, Int128.isSome_ofInt?_iff, Int128.Fits,
      reduceCtorEq, exists_false, false_or, bigInt.injEq, exists_eq_left']
    omega
  | _ => simp [negate?]

/-- A difference from zero has a result wherever the opposite of the other operand has one. -/
theorem Computes.of_isZero (ha : a.isZero = true) (hb : b.negate?.isSome) :
    Computes .subtract a b := by
  obtain ⟨x, rfl⟩ | ⟨n, rfl, hn⟩ := isSome_negate?_iff.1 hb
  · exact .floatRight rfl (isNumeric_of_isZero ha)
  · cases a with
    | number => exact .floatLeft rfl rfl
    | bigInt z =>
      have hz : z.val = 0 := by simpa [isZero] using ha
      have hle := n.le_val
      have hlt := n.val_lt
      refine .exact rfl ?_
      rw [Int128.Fits, hz]
      omega
    | _ => cases ha

end Literal

/-! ## Redexes -/

namespace Expr

/-- An operation on literals that has a result, a difference from zero, a choice whose left operand
is no value, or the negation of a number that has an opposite. -/
inductive Redex : Expr → Prop where
  | compute : a.Computes op b → Redex (.binary op (.literal a) (.literal b) t)
  | zeroMinus : a.isZero = true → Redex (.binary .subtract (.literal a) e t)
  | coalesce : a.isNullish = true → Redex (.binary .coalesce (.literal a) e t)
  | negateFloat : Redex (.unary .negate (.literal (.number x)) t)
  | negateInteger : n.val ≠ -2 ^ 127 → Redex (.unary .negate (.literal (.bigInt n)) t)

/-- No redex is anywhere in the expression. -/
def RedexFree (e : Expr) : Prop := ∀ e' ∈ e.subexprs, ¬e'.Redex

end Expr

/-- No redex is anywhere in the program. -/
def Program.RedexFree (p : Program) : Prop := ∀ e ∈ p.subexprs, ¬e.Redex

namespace Expr

variable {e l r : Expr} {es : List Expr} {t : Ty}

theorem redexFree_literal (value : Literal) : (literal value).RedexFree := by
  intro e he
  obtain rfl := List.mem_singleton.1 he
  intro h
  cases h

theorem redexFree_var (v : Variable) : (var v).RedexFree := by
  intro e he
  obtain rfl := List.mem_singleton.1 he
  intro h
  cases h

theorem redexFree_binary {op : BinaryOp} : (binary op l r t).RedexFree ↔
    ¬(binary op l r t).Redex ∧ l.RedexFree ∧ r.RedexFree := by
  simp only [RedexFree, subexprs, List.forall_mem_cons, List.forall_mem_append]

theorem redexFree_unary {op : UnaryOp} : (unary op e t).RedexFree ↔
    ¬(unary op e t).Redex ∧ e.RedexFree := by
  simp only [RedexFree, subexprs, List.forall_mem_cons]

theorem forall_mem_subexprsAll {P : Expr → Prop} :
    (∀ e ∈ subexprsAll es, P e) ↔ ∀ e ∈ es, ∀ e' ∈ e.subexprs, P e' := by
  rw [subexprsAll_eq_flatMap, List.forall_mem_flatMap]

/-- Only operations are redexes. -/
theorem redexFree_array : (array es t).RedexFree ↔ ∀ e ∈ es, e.RedexFree := by
  have hself : ¬(array es t).Redex := by
    intro h
    cases h
  simp only [RedexFree, subexprs, List.forall_mem_cons, forall_mem_subexprsAll, hself,
    not_false_eq_true, true_and]

theorem redexFree_subscript : (subscript l r t).RedexFree ↔ l.RedexFree ∧ r.RedexFree := by
  have hself : ¬(subscript l r t).Redex := by
    intro h
    cases h
  simp only [RedexFree, subexprs, List.forall_mem_cons, List.forall_mem_append, hself,
    not_false_eq_true, true_and]

theorem redexFree_call {name : String} : (call name es t).RedexFree ↔ ∀ e ∈ es, e.RedexFree := by
  have hself : ¬(call name es t).Redex := by
    intro h
    cases h
  simp only [RedexFree, subexprs, List.forall_mem_cons, forall_mem_subexprsAll, hself,
    not_false_eq_true, true_and]

/-! ## Operations over folded operands -/

theorem constant?_literal {op : BinaryOp} {a b : Literal} (h : a.Computes op b) :
    ∃ value, constant? op (literal a) (literal b) = some value :=
  Option.isSome_iff_exists.1 (Literal.isSome_arithmetic?_iff.2 h)

/-- A negation is a redex exactly if its operand is a literal that has an opposite. -/
theorem redex_negate_iff :
    (unary .negate e t).Redex ↔ ∃ a, e = literal a ∧ a.negate?.isSome := by
  constructor
  · intro h
    cases h with
    | negateFloat => exact ⟨_, rfl, rfl⟩
    | negateInteger hn => exact ⟨_, rfl, Literal.isSome_negate?_iff.2 (.inr ⟨_, rfl, hn⟩)⟩
  · intro h
    obtain ⟨a, rfl, ha⟩ := h
    obtain ⟨x, rfl⟩ | ⟨n, rfl, hn⟩ := Literal.isSome_negate?_iff.1 ha
    · exact .negateFloat
    · exact .negateInteger hn

/-- The simplifications that are made where nothing is computed leave no redex. -/
theorem redexFree_simplifyBinary {op : BinaryOp} (hc : constant? op l r = none)
    (hl : l.RedexFree) (hr : r.RedexFree) : (simplifyBinary op l r t).RedexFree := by
  have hcompute : ∀ a b, l = literal a → r = literal b → ¬a.Computes op b := by
    intro a b hla hrb h
    obtain ⟨value, hvalue⟩ := constant?_literal h
    rw [hla, hrb, hvalue] at hc
    cases hc
  unfold simplifyBinary
  split
  · next a =>
    split
    · next ha =>
      -- had the right operand an opposite, the difference would have been computed
      refine redexFree_unary.2 ⟨fun h => ?_, hr⟩
      obtain ⟨b, rfl, hb⟩ := redex_negate_iff.1 h
      exact hcompute a b rfl rfl (.of_isZero ha hb)
    · next ha =>
      refine redexFree_binary.2 ⟨fun h => ?_, hl, hr⟩
      cases h with
      | compute h => exact hcompute _ _ rfl rfl h
      | zeroMinus h => exact ha h
  · next a =>
    split
    · exact hr
    · next ha =>
      refine redexFree_binary.2 ⟨fun h => ?_, hl, hr⟩
      cases h with
      | compute h => exact hcompute _ _ rfl rfl h
      | coalesce h => exact ha h
  · next hsubtract hcoalesce =>
    refine redexFree_binary.2 ⟨fun h => ?_, hl, hr⟩
    cases h with
    | compute h => exact hcompute _ _ rfl rfl h
    | zeroMinus => exact hsubtract _ rfl rfl
    | coalesce => exact hcoalesce _ rfl rfl

/-- Folding an operation over folded operands leaves nothing to fold. -/
theorem redexFree_foldBinary {op : BinaryOp} (hl : l.RedexFree) (hr : r.RedexFree) :
    (foldBinary op l r t).RedexFree := by
  unfold foldBinary
  split
  · exact redexFree_literal _
  · next hc => exact redexFree_simplifyBinary hc hl hr

theorem redexFree_foldUnary {op : UnaryOp} (he : e.RedexFree) :
    (foldUnary op e t).RedexFree := by
  unfold foldUnary
  split
  · next a =>
    split
    · exact redexFree_literal _
    · next hnone =>
      refine redexFree_unary.2 ⟨fun h => ?_, he⟩
      obtain ⟨b, hb, hsome⟩ := redex_negate_iff.1 h
      cases hb
      rw [hnone] at hsome
      cases hsome
  · next hliteral =>
    refine redexFree_unary.2 ⟨fun h => ?_, he⟩
    cases h with
    | negateFloat | negateInteger => exact hliteral _ rfl rfl

/-- An operation that is no redex is not computed. -/
theorem constant?_of_not_redex {op : BinaryOp} (h : ¬(binary op l r t).Redex) :
    constant? op l r = none := by
  unfold constant?
  split
  · next a b =>
    have hnot : ¬(Literal.arithmetic? op a b).isSome :=
      fun hsome => h (.compute (Literal.isSome_arithmetic?_iff.1 hsome))
    exact Option.not_isSome_iff_eq_none.1 hnot
  · rfl

/-- An operation that cannot be computed is left as it is. -/
theorem foldBinary_of_not_redex {op : BinaryOp} (h : ¬(binary op l r t).Redex) :
    foldBinary op l r t = binary op l r t := by
  rw [foldBinary, constant?_of_not_redex h]
  show simplifyBinary op l r t = _
  unfold simplifyBinary
  split
  · exact if_neg fun ha => h (.zeroMinus ha)
  · exact if_neg fun ha => h (.coalesce ha)
  · rfl

theorem foldUnary_of_not_redex {op : UnaryOp} (h : ¬(unary op e t).Redex) :
    foldUnary op e t = unary op e t := by
  unfold foldUnary
  split
  · next a =>
    have hnone : a.negate? = none := by
      refine Option.not_isSome_iff_eq_none.1 fun ha => h ?_
      exact redex_negate_iff.2 ⟨a, rfl, ha⟩
    rw [hnone]
  · rfl

/-! ## Expressions -/

/-- After one pass there is nothing left to fold. -/
theorem redexFree_fold (e : Expr) : e.fold.RedexFree := by
  induction e using Expr.induction with
  | literal value => exact redexFree_literal value
  | var v => exact redexFree_var v
  | binary op left right t ihl ihr => exact redexFree_foldBinary ihl ihr
  | unary op operand t ih => exact redexFree_foldUnary ih
  | array elements t ih => exact redexFree_array.2 (forall_mem_foldAll ih)
  | subscript base index t ihb ihi => exact redexFree_subscript.2 ⟨ihb, ihi⟩
  | call name args t ih => exact redexFree_call.2 (forall_mem_foldAll ih)

theorem foldAll_eq_self (h : ∀ e ∈ es, e.fold = e) : foldAll es = es := by
  rw [foldAll_eq_map]
  exact (List.map_congr_left h).trans (List.map_id' es)

/-- What has nothing to fold is left as it is. -/
theorem fold_eq_self (h : e.RedexFree) : e.fold = e := by
  induction e using Expr.induction with
  | literal value => rfl
  | var v => rfl
  | binary op left right t ihl ihr =>
    obtain ⟨hself, hl, hr⟩ := redexFree_binary.1 h
    rw [fold, ihl hl, ihr hr, foldBinary_of_not_redex hself]
  | unary op operand t ih =>
    obtain ⟨hself, ho⟩ := redexFree_unary.1 h
    rw [fold, ih ho, foldUnary_of_not_redex hself]
  | array elements t ih =>
    have helements := redexFree_array.1 h
    rw [fold, foldAll_eq_self fun e he => ih e he (helements e he)]
  | subscript base index t ihb ihi =>
    obtain ⟨hb, hi⟩ := redexFree_subscript.1 h
    rw [fold, ihb hb, ihi hi]
  | call name args t ih =>
    have hargs := redexFree_call.1 h
    rw [fold, foldAll_eq_self fun e he => ih e he (hargs e he)]

end Expr

/-! ## Programs -/

namespace Stmt

theorem exprs_fold (s : Stmt) : s.fold.exprs = s.exprs.map Expr.fold := by
  cases s with
  | result expression => cases expression <;> rfl
  | _ => rfl

theorem contents_fold (s : Stmt) : s.fold.contents = foldAll s.contents := by
  cases s <;> rfl

theorem forall_mem_subexprs {P : Expr → Prop} {s : Stmt} : (∀ e ∈ s.subexprs, P e) ↔
    (∀ e ∈ s.exprs, ∀ e' ∈ e.subexprs, P e') ∧ ∀ e ∈ subexprsAll s.contents, P e := by
  rw [subexprs_eq, List.forall_mem_append, List.forall_mem_flatMap]

theorem redexFree_foldAll (ss : List Stmt) : ∀ e ∈ subexprsAll (foldAll ss), ¬e.Redex := by
  induction ss using Stmt.induction (P := fun s => ∀ e ∈ s.fold.subexprs, ¬e.Redex) with
  | step s ih e he =>
    refine (forall_mem_subexprs (P := fun e => ¬e.Redex)).2 ⟨?_, ?_⟩ e he
    · rw [exprs_fold]
      exact List.forall_mem_map.2 fun e _ => e.redexFree_fold
    · rwa [contents_fold]
  | nil => exact fun e he => absurd he List.not_mem_nil
  | cons s ss hs ih =>
    rw [foldAll, subexprsAll]
    exact List.forall_mem_append.2 ⟨hs, ih⟩

/-- A statement over folded expressions and a folded block is folded. -/
theorem fold_eq_self {s : Stmt} (hexprs : ∀ e ∈ s.exprs, e.fold = e)
    (hcontents : foldAll s.contents = s.contents) : s.fold = s := by
  cases s with
  | print e => rw [fold, hexprs e List.mem_cons_self]
  | varDec v e => rw [fold, hexprs e List.mem_cons_self]
  | assign target source =>
    obtain ⟨ht, hs⟩ := List.forall_mem_cons.1 hexprs
    rw [fold, ht, hs source List.mem_cons_self]
  | loop test body =>
    rw [contents] at hcontents
    rw [fold, hexprs test List.mem_cons_self, hcontents]
  | funDec f body =>
    rw [contents] at hcontents
    rw [fold, hcontents]
  | result expression =>
    cases expression with
    | none => rfl
    | some e => rw [fold, Option.map_some, hexprs e List.mem_cons_self]
  | call name args t =>
    have hcall := hexprs (.call name args t) List.mem_cons_self
    rw [Expr.fold, Expr.call.injEq] at hcall
    rw [fold, hcall.2.1]

theorem foldAll_eq_self {ss : List Stmt} (h : ∀ e ∈ subexprsAll ss, ¬e.Redex) :
    foldAll ss = ss := by
  induction ss using Stmt.induction (P := fun s => (∀ e ∈ s.subexprs, ¬e.Redex) → s.fold = s) with
  | step s ih h =>
    obtain ⟨hexprs, hcontents⟩ := forall_mem_subexprs.1 h
    exact fold_eq_self (fun e he => Expr.fold_eq_self (hexprs e he)) (ih hcontents)
  | nil => rfl
  | cons s ss hs ih =>
    obtain ⟨hfirst, hrest⟩ := List.forall_mem_append.1 h
    rw [foldAll, hs hfirst, ih hrest]

end Stmt

/-! ## Equality -/

theorem Literal.beq_self (a : Literal) : a.beq a = true := by
  cases a <;> simp [beq]

namespace Expr

theorem beqAll_self {es : List Expr} (h : ∀ e ∈ es, e.beq e = true) : beqAll es es = true := by
  induction es with
  | nil => rfl
  | cons e es ih =>
    obtain ⟨he, hes⟩ := List.forall_mem_cons.1 h
    rw [beqAll, he, ih hes, Bool.and_self]

theorem beq_self (e : Expr) : e.beq e = true := by
  induction e using Expr.induction with
  | literal value => exact value.beq_self
  | var v => simp [beq]
  | binary op left right t ihl ihr => simp [beq, ihl, ihr]
  | unary op operand t ih => simp [beq, ih]
  | array elements t ih => simp [beq, beqAll_self ih]
  | subscript base index t ihb ihi => simp [beq, ihb, ihi]
  | call name args t ih => simp [beq, beqAll_self ih]

instance : ReflBEq Expr := ⟨beq_self _⟩

end Expr

theorem Stmt.beqAll_self (ss : List Stmt) : beqAll ss ss = true := by
  induction ss using Stmt.induction (P := fun s => s.beq s = true) with
  | step s ih =>
    cases s with
    | loop test body | funDec f body =>
      rw [contents] at ih
      simp [beq, ih]
    | call name args t => simp [beq, Expr.beqAll_self fun e _ => e.beq_self]
    | _ => simp [beq]
  | nil => rfl
  | cons s ss hs ih => rw [beqAll, hs, ih, Bool.and_self]

instance : ReflBEq Stmt where
  rfl {s} := by
    have h := Stmt.beqAll_self [s]
    rwa [Stmt.beqAll, Stmt.beqAll, Bool.and_true] at h

theorem Program.beq_self (p : Program) : (p == p) = true := by
  show (p.statements == p.statements) = true
  exact BEq.rfl

theorem Program.redexFree_fold (p : Program) : p.fold.RedexFree :=
  Stmt.redexFree_foldAll p.statements

theorem Program.fold_eq_self {p : Program} (h : p.RedexFree) : p.fold = p :=
  congrArg Program.mk (Stmt.foldAll_eq_self h)

/-- One pass reaches the fixpoint: nothing is left to fold after it, and exactly the programs in
which there is nothing to fold stay as they are. So a second pass changes nothing. -/
theorem Program.fold_reaches_fixpoint (p : Program) :
    p.fold.RedexFree ∧ (p.RedexFree ↔ p.fold = p) ∧ (p.fold.fold == p.fold) = true := by
  refine ⟨p.redexFree_fold, ⟨fold_eq_self, fun h => ?_⟩, ?_⟩
  · rw [← h]
    exact p.redexFree_fold
  · rw [fold_eq_self p.redexFree_fold]
    exact p.fold.beq_self

end Scriptlet
