import Mathlib.Algebra.Group.Int.Defs
import Scriptlet.Folding

/-!
Folding keeps the value of integer expressions. Literals have 128 bits, but evaluation is over all
integers: where a folded operation would leave the range of the literals it stays as it is, and
`Expr.eval_fold` says that what stays and what is computed have the same value, or none both.
-/

namespace Scriptlet

/-- What evaluation takes as given. A remainder, a power or a call may have no value. -/
structure Interpretation where
  valuation : Variable → Int
  modulo : Int → Int → Option Int
  power : Int → Int → Option Int
  call : String → List Int → Option Int

namespace Interpretation

/-- The value of an operation on two integers. Quotients go toward zero, and there is none by
zero. -/
def binary (I : Interpretation) : BinaryOp → Int → Int → Option Int
  | .add, a, b => some (a + b)
  | .subtract, a, b => some (a - b)
  | .multiply, a, b => some (a * b)
  | .divide, a, b => if b = 0 then none else some (a.tdiv b)
  | .modulo, a, b => I.modulo a b
  | .power, a, b => I.power a b
  | _, _, _ => none

end Interpretation

def BinaryOp.isArithmetic : BinaryOp → Bool
  | add | subtract | multiply | divide | modulo | power => true
  | _ => false

namespace Expr

/-- Expressions over integers. -/
inductive Integral : Expr → Prop where
  | literal : Integral (literal (.bigInt a))
  | var : Integral (var v)
  | negate : Integral e → Integral (unary .negate e t)
  | binary : op.isArithmetic = true → Integral left → Integral right →
      Integral (binary op left right t)
  | call : (∀ e ∈ args, Integral e) → Integral (call name args t)

mutual

/-- The value of an integer expression. It has none if a part has none. -/
def eval (I : Interpretation) : Expr → Option Int
  | literal (.bigInt a) => some a.val
  | var v => some (I.valuation v)
  | unary .negate operand _ => do return -(← operand.eval I)
  | binary op left right _ => do I.binary op (← left.eval I) (← right.eval I)
  | call name args _ => do I.call name (← evalAll I args)
  | _ => none

def evalAll (I : Interpretation) : List Expr → Option (List Int)
  | [] => some []
  | e :: es => do return (← e.eval I) :: (← evalAll I es)

end

end Expr

/-! ## Literals -/

namespace Literal

variable {I : Interpretation} {op : BinaryOp} {a b c : Int128}

/-- Where bounded arithmetic has a result it is the exact one. -/
theorem binary_of_wideArithmetic? (h : wideArithmetic? op a b = some c) :
    I.binary op a.val b.val = some c.val := by
  cases op with
  | add =>
    have hc : c.val = a.val + b.val := Int128.ofInt?_eq_some_iff.1 h
    rw [Interpretation.binary, hc]
  | subtract =>
    have hc : c.val = a.val - b.val := Int128.ofInt?_eq_some_iff.1 h
    rw [Interpretation.binary, hc]
  | multiply =>
    have hc : c.val = a.val * b.val := Int128.ofInt?_eq_some_iff.1 h
    rw [Interpretation.binary, hc]
  | divide =>
    rw [wideArithmetic?, Int128.div?] at h
    by_cases hb : b.val = 0
    · simp [hb] at h
    · rw [if_neg hb, Int128.ofInt?_eq_some_iff] at h
      rw [Interpretation.binary, if_neg hb, h]
  | _ => cases h

theorem arithmetic?_bigInt {value : Literal}
    (h : arithmetic? op (.bigInt a) (.bigInt b) = some value) :
    ∃ c, value = .bigInt c ∧ I.binary op a.val b.val = some c.val := by
  obtain ⟨c, hc, rfl⟩ := Option.map_eq_some_iff.1 h
  exact ⟨c, rfl, binary_of_wideArithmetic? hc⟩

end Literal

/-! ## Operations over folded operands -/

namespace Expr

variable {I : Interpretation} {op : BinaryOp} {left right e : Expr} {ty : Ty}

theorem eval_binary : (binary op left right ty).eval I =
    (left.eval I).bind fun a => (right.eval I).bind fun b => I.binary op a b := by
  rw [eval]
  rfl

theorem eval_negate : (unary .negate e ty).eval I = (e.eval I).map fun a => -a := by
  rw [eval]
  cases e.eval I <;> rfl

/-- A difference from zero is the negation, also where the negation of a literal would not fit. -/
theorem eval_simplifyBinary (hl : left.Integral) :
    (simplifyBinary op left right ty).eval I = (binary op left right ty).eval I := by
  cases hl with
  | @literal a =>
    cases op with
    | subtract =>
      by_cases ha : a.val = 0
      · have hzero : (Literal.bigInt a).isZero = true := by simp [Literal.isZero, ha]
        rw [simplifyBinary, if_pos hzero, eval_negate, eval_binary, eval, ha]
        cases right.eval I with
        | none => rfl
        | some b => simp [Interpretation.binary]
      · have hzero : ¬(Literal.bigInt a).isZero = true := by simp [Literal.isZero, ha]
        rw [simplifyBinary, if_neg hzero]
    | _ => rfl
  | _ => cases op <;> rfl

theorem Integral.simplifyBinary (hop : op.isArithmetic = true) (hl : left.Integral)
    (hr : right.Integral) : (Expr.simplifyBinary op left right ty).Integral := by
  unfold Expr.simplifyBinary
  split
  · split
    · exact .negate hr
    · exact .binary hop hl hr
  · cases hop
  · exact .binary hop hl hr

/-- An operation over integer operands is folded to an integer expression of the same value. -/
theorem Integral.foldBinary (hop : op.isArithmetic = true) (hl : left.Integral)
    (hr : right.Integral) : (Expr.foldBinary op left right ty).Integral ∧
      (Expr.foldBinary op left right ty).eval I = (Expr.binary op left right ty).eval I := by
  unfold Expr.foldBinary
  cases h : constant? op left right with
  | none => exact ⟨hl.simplifyBinary hop hr, eval_simplifyBinary hl⟩
  | some value =>
    cases hl with
    | @literal a =>
      cases hr with
      | @literal b =>
        obtain ⟨c, rfl, hc⟩ := Literal.arithmetic?_bigInt (I := I) h
        refine ⟨.literal, ?_⟩
        rw [eval_binary]
        exact hc.symm
      | _ => cases h
    | _ => cases h

/-- A literal whose negation does not fit keeps its sign in front. -/
theorem Integral.foldUnary (he : e.Integral) : (Expr.foldUnary .negate e ty).Integral ∧
    (Expr.foldUnary .negate e ty).eval I = (Expr.unary .negate e ty).eval I := by
  cases he with
  | @literal a =>
    rw [Expr.foldUnary]
    cases h : a.neg? with
    | none =>
      rw [Literal.negate?, h]
      exact ⟨.negate .literal, rfl⟩
    | some c =>
      have hc : c.val = -a.val := Int128.ofInt?_eq_some_iff.1 h
      rw [Literal.negate?, h, eval_negate]
      exact ⟨.literal, by simp [eval, hc]⟩
  | var => exact ⟨.negate .var, rfl⟩
  | negate he => exact ⟨.negate (.negate he), rfl⟩
  | binary hop hl hr => exact ⟨.negate (.binary hop hl hr), rfl⟩
  | call hargs => exact ⟨.negate (.call hargs), rfl⟩

/-! ## Whole expressions -/

theorem evalAll_foldAll {es : List Expr} (h : ∀ e ∈ es, e.fold.eval I = e.eval I) :
    evalAll I (foldAll es) = evalAll I es := by
  induction es with
  | nil => rfl
  | cons e es ih =>
    have he := h e (List.mem_cons_self ..)
    have hes := ih fun e' he' => h e' (List.mem_cons_of_mem _ he')
    rw [foldAll, evalAll, evalAll, he, hes]

/-- Both facts at once: folding a difference looks at the literal to its left, which has to be an
integer for the values to agree. -/
theorem Integral.fold (h : e.Integral) (I : Interpretation) :
    e.fold.Integral ∧ e.fold.eval I = e.eval I := by
  induction h with
  | literal => exact ⟨.literal, rfl⟩
  | var => exact ⟨.var, rfl⟩
  | negate _ ih =>
    obtain ⟨hi, hv⟩ := ih
    obtain ⟨hi', hv'⟩ := hi.foldUnary (I := I)
    exact ⟨hi', by rw [Expr.fold, hv', eval_negate, eval_negate, hv]⟩
  | binary hop _ _ ihl ihr =>
    obtain ⟨hl, hvl⟩ := ihl
    obtain ⟨hr, hvr⟩ := ihr
    obtain ⟨hi, hv⟩ := hl.foldBinary (I := I) hop hr
    exact ⟨hi, by rw [Expr.fold, hv, eval_binary, eval_binary, hvl, hvr]⟩
  | @call args name t _ ih =>
    have hv := evalAll_foldAll fun e he => (ih e he).2
    refine ⟨.call ?_, by rw [Expr.fold, eval, eval, hv]⟩
    rw [foldAll_eq_map]
    intro e he
    obtain ⟨e', he', rfl⟩ := List.mem_map.1 he
    exact (ih e' he').1

/-- A folded integer expression has the value of the expression, whatever the variables hold and
the calls give. -/
theorem eval_fold (h : e.Integral) (I : Interpretation) : e.fold.eval I = e.eval I :=
  (h.fold I).2

/-- `(0 - m) * (m / -1)` for the least literal `m`: neither factor fits into a literal. -/
def extremeProduct : Expr :=
  let least := literal (.bigInt ⟨-2 ^ 127, by decide, by decide⟩)
  let one := literal (.bigInt ⟨1, by decide, by decide⟩)
  let zero := literal (.bigInt ⟨0, by decide, by decide⟩)
  binary .multiply (binary .subtract zero least .num)
    (binary .divide least (unary .negate one .num) .num) .num

theorem eval_fold_extremeProduct :
    extremeProduct.Integral ∧
      extremeProduct.fold.eval
        ⟨fun _ => 0, fun _ _ => none, fun _ _ => none, fun _ _ => none⟩ = some (2 ^ 254) := by
  have h : extremeProduct.Integral :=
    .binary rfl (.binary rfl .literal .literal) (.binary rfl .literal (.negate .literal))
  exact ⟨h, (eval_fold h _).trans (by decide)⟩

end Expr

end Scriptlet
