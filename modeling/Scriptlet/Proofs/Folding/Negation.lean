import Scriptlet.Proofs.Folding.Normal

/-!
Differences from zero and negations. A difference of literals is computed by subtraction, any other
difference from zero is written as a negation, and the negation of a literal is computed on a way of
its own. Over one and the same operand the ways meet exactly where subtraction from the zero gives
what negation gives, or neither gives anything.

Of floats nothing is used.
-/

namespace Scriptlet

/-! ## Literals -/

namespace Literal

variable {b : Literal}

/-- An integer zero minus a literal that is no float is the opposite of the literal; the least
integer has neither. -/
theorem subtract_from_bigInt {z : Int128} (hz : z.val = 0) (hb : ∀ x, b ≠ number x) :
    arithmetic? .subtract (bigInt z) b = b.negate? := by
  cases b with
  | number x => exact absurd rfl (hb x)
  | bigInt n =>
    change (z.sub? n).map bigInt = n.neg?.map bigInt
    rw [Int128.sub?, Int128.neg?, hz, Int.zero_sub]
  | _ => rfl

/-- What is no number has neither a difference from a float nor an opposite. -/
theorem subtract_from_number {z : Float} (hb : b.isNumeric = false) :
    arithmetic? .subtract (number z) b = b.negate? := by
  cases b with
  | number | bigInt => cases hb
  | _ => rfl

/-- A float minus an integer is a float, and the opposite of an integer is not. -/
theorem subtract_from_number_ne (z : Float) (n : Int128) :
    arithmetic? .subtract (number z) (bigInt n) ≠ (bigInt n).negate? := by
  change some (number (z - n.toFloat)) ≠ n.neg?.map bigInt
  cases n.neg? <;> simp

end Literal

/-! ## Operations over folded operands -/

namespace Expr

variable {r : Expr} {t : Ty} {a : Literal}

theorem foldBinary_of_zero_of_ne_literal (ha : a.isZero = true) (hr : ∀ b, r ≠ literal b) :
    foldBinary .subtract (literal a) r t = unary .negate r t := by
  have hc : constant? .subtract (literal a) r = none := by
    cases r with
    | literal b => exact absurd rfl (hr b)
    | _ => rfl
  rw [foldBinary, hc]
  exact if_pos ha

theorem foldUnary_of_ne_literal (hr : ∀ b, r ≠ literal b) :
    foldUnary .negate r t = unary .negate r t := by
  cases r with
  | literal b => exact absurd rfl (hr b)
  | _ => rfl

theorem foldBinary_of_zero (ha : a.isZero = true) (b : Literal) :
    foldBinary .subtract (literal a) (literal b) t =
      ((Literal.arithmetic? .subtract a b).map literal).getD (unary .negate (literal b) t) := by
  rw [foldBinary, constant?]
  cases Literal.arithmetic? .subtract a b with
  | some value => rfl
  | none => exact if_pos ha

theorem foldUnary_literal (b : Literal) :
    foldUnary .negate (literal b) t = (b.negate?.map literal).getD (unary .negate (literal b) t) := by
  rw [foldUnary]
  cases b.negate? <;> rfl

/-- A difference from zero and a negation of the same operand come to the same exactly if, where the
operand is a literal, subtraction and negation do. -/
theorem foldBinary_eq_foldUnary_iff (ha : a.isZero = true) :
    foldBinary .subtract (literal a) r t = foldUnary .negate r t ↔
      ∀ b, r = literal b → Literal.arithmetic? .subtract a b = b.negate? := by
  by_cases hr : ∃ b, r = literal b
  · obtain ⟨b, rfl⟩ := hr
    simp only [literal.injEq, forall_eq']
    rw [foldBinary_of_zero ha, foldUnary_literal]
    cases Literal.arithmetic? .subtract a b <;> cases b.negate? <;> simp
  · have hr : ∀ b, r ≠ literal b := not_exists.1 hr
    rw [foldBinary_of_zero_of_ne_literal ha hr, foldUnary_of_ne_literal hr]
    exact iff_of_true rfl fun b hb => absurd hb (hr b)

theorem isZero_bigInt {z : Int128} (hz : z.val = 0) : (Literal.bigInt z).isZero = true := by
  rw [Literal.isZero, hz]
  rfl

/-- The negation of the least integer is left as it is. -/
theorem foldUnary_least {n : Int128} (hn : n.val = -2 ^ 127) :
    foldUnary .negate (literal (.bigInt n)) t = unary .negate (literal (.bigInt n)) t := by
  apply foldUnary_of_not_redex
  intro h
  obtain ⟨b, hb, hsome⟩ := redex_negate_iff.1 h
  cases hb
  obtain ⟨x, hx⟩ | ⟨m, hm, hne⟩ := Literal.isSome_negate?_iff.1 hsome
  · cases hx
  · cases hm
    exact hne hn

/-! ## Expressions -/

/-- `0 - e` is folded to what `-e` is folded to, where the zero is an integer if `e` does not come to
a float, and where it is a float if `e` comes to no number at all. The least integer is no exception,
both are left as its negation. From a zero that is a float to an integer there is no such law. -/
theorem fold_zero_minus (e : Expr) (t : Ty) :
    (∀ z : Int128, z.val = 0 → (∀ x, e.fold ≠ literal (.number x)) →
      (binary .subtract (literal (.bigInt z)) e t).fold = (unary .negate e t).fold) ∧
    (∀ z n : Int128, z.val = 0 → n.val = -2 ^ 127 → e.fold = literal (.bigInt n) →
      (binary .subtract (literal (.bigInt z)) e t).fold = unary .negate (literal (.bigInt n)) t ∧
        (unary .negate e t).fold = unary .negate (literal (.bigInt n)) t) ∧
    (∀ z : Float, (z == 0) = true → (∀ x, e.fold ≠ literal (.number x)) →
      (∀ n, e.fold ≠ literal (.bigInt n)) →
      (binary .subtract (literal (.number z)) e t).fold = (unary .negate e t).fold) ∧
    ∀ z : Float, (z == 0) = true → ∀ n, e.fold = literal (.bigInt n) →
      (binary .subtract (literal (.number z)) e t).fold ≠ (unary .negate e t).fold := by
  have hinteger : ∀ z : Int128, z.val = 0 → (∀ x, e.fold ≠ literal (.number x)) →
      (binary .subtract (literal (.bigInt z)) e t).fold = (unary .negate e t).fold := by
    intro z hz he
    refine (foldBinary_eq_foldUnary_iff (isZero_bigInt hz)).2 fun b hb => ?_
    exact Literal.subtract_from_bigInt hz fun x hx => he x (hx ▸ hb)
  refine ⟨hinteger, ?_, ?_, ?_⟩
  · intro z n hz hn he
    have hnegation : (unary .negate e t).fold = unary .negate (literal (.bigInt n)) t := by
      rw [fold, he, foldUnary_least hn]
    refine ⟨?_, hnegation⟩
    rw [hinteger z hz, hnegation]
    intro x hx
    cases he.symm.trans hx
  · intro z hz hx hn
    refine (foldBinary_eq_foldUnary_iff (a := .number z) hz).2 fun b hb => ?_
    apply Literal.subtract_from_number
    cases b with
    | number x => exact absurd hb (hx x)
    | bigInt n => exact absurd hb (hn n)
    | _ => rfl
  · intro z hz n he heq
    have hliterals := (foldBinary_eq_foldUnary_iff (a := .number z) hz).1 heq
    exact Literal.subtract_from_number_ne z n (hliterals _ he)

/-- A difference that comes to the least integer. -/
def lowDifference : Expr :=
  binary .subtract
    (literal (.bigInt ⟨-0x7ffffffffffffffffffffffffffffff9, by decide, by decide⟩))
    (literal (.bigInt ⟨7, by decide, by decide⟩)) .num

/-- The least integer as the operand, and a variable after the other zero of floats. -/
theorem fold_zero_minus_lowDifference :
    (∃ z n : Int128, z.val = 0 ∧ n.val = -2 ^ 127 ∧ lowDifference.fold = literal (.bigInt n) ∧
      (binary .subtract (literal (.bigInt z)) lowDifference .num).fold =
        unary .negate (literal (.bigInt n)) .num ∧
      (unary .negate lowDifference .num).fold = unary .negate (literal (.bigInt n)) .num ∧
      (binary .subtract (literal (.number (-0))) lowDifference .num).fold ≠
        (unary .negate lowDifference .num).fold) ∧
    let x := var ⟨"x", .num⟩
    ((-0 : Float) == 0) = true ∧
      (binary .subtract (literal (.number (-0))) x .num).fold = (unary .negate x .num).fold := by
  have hzero : ((-0 : Float) == 0) = true := rfl
  obtain ⟨z, hz⟩ : ∃ z : Int128, z.val = 0 := ⟨⟨0, by decide, by decide⟩, rfl⟩
  obtain ⟨n, hn, hfold⟩ :
      ∃ n : Int128, n.val = -2 ^ 127 ∧ lowDifference.fold = literal (.bigInt n) :=
    ⟨⟨-2 ^ 127, by decide, by decide⟩, rfl, rfl⟩
  obtain ⟨-, hleast, -, hne⟩ := fold_zero_minus lowDifference .num
  obtain ⟨hdifference, hnegation⟩ := hleast z n hz hn hfold
  refine ⟨⟨z, n, hz, hn, hfold, hdifference, hnegation, hne _ hzero n hfold⟩, hzero, ?_⟩
  exact (fold_zero_minus _ _).2.2.1 _ hzero (fun _ h => by cases h) (fun _ h => by cases h)

end Expr

end Scriptlet
