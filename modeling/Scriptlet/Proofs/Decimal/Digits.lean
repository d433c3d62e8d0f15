import Mathlib.Algebra.Group.Nat.Defs

/-!
Decimal digits and the numbers that they stand for. A number is written without zeros in front, and
there is no other way to write it so.
-/

namespace Scriptlet

/-- The digits without the zeros in front, but never none. -/
def significant (ds : List Char) : List Char :=
  match ds.dropWhile (· = '0') with
  | [] => ['0']
  | d :: ds => d :: ds

namespace Digits

variable {c : Char} {ds : List Char} {n : Nat}

theorem digitChar_of_isDigit (h : c.isDigit = true) :
    c.toNat - '0'.toNat < 10 ∧ Nat.digitChar (c.toNat - '0'.toNat) = c := by
  have hrange : 48 ≤ c.toNat ∧ c.toNat ≤ 57 := Char.isDigit_iff_toNat.1 h
  obtain ⟨k, hk, hc⟩ : ∃ k < 10, c.toNat = '0'.toNat + k :=
    ⟨c.toNat - 48, by omega, by show c.toNat = 48 + (c.toNat - 48); omega⟩
  have hdigit : ∀ k < 10, (Nat.digitChar k).toNat = '0'.toNat + k := by decide
  rw [hc, Nat.add_sub_cancel_left]
  refine ⟨hk, Char.toNat_inj.1 ?_⟩
  rw [hdigit k hk, hc]

theorem isDigit_of_mem_toDigits (h : c ∈ Nat.toDigits 10 n) : c.isDigit = true :=
  Nat.isDigit_of_mem_toDigits (by decide) (by decide) h

/-! ## Values -/

/-- The value of digits in two parts. -/
theorem ofDigitChars_append (ds es : List Char) : Nat.ofDigitChars 10 (ds ++ es) 0 =
    Nat.ofDigitChars 10 ds 0 * 10 ^ es.length + Nat.ofDigitChars 10 es 0 := by
  rw [Nat.ofDigitChars_append, Nat.ofDigitChars_eq_ofDigitChars_zero, Nat.mul_comm]

theorem ofDigitChars_zero_cons (ds : List Char) :
    Nat.ofDigitChars 10 ('0' :: ds) 0 = Nat.ofDigitChars 10 ds 0 :=
  Nat.ofDigitChars_cons

theorem ofDigitChars_append_zeros (ds : List Char) (k : Nat) :
    Nat.ofDigitChars 10 (ds ++ List.replicate k '0') 0 = Nat.ofDigitChars 10 ds 0 * 10 ^ k := by
  rw [Nat.ofDigitChars_append, Nat.ofDigitChars_replicate_zero, Nat.mul_comm]

theorem ofDigitChars_zeros_append (ds : List Char) (k : Nat) :
    Nat.ofDigitChars 10 (List.replicate k '0' ++ ds) 0 = Nat.ofDigitChars 10 ds 0 := by
  rw [Nat.ofDigitChars_append, Nat.ofDigitChars_replicate_zero, Nat.mul_zero]

/-- Digits after a number continue the digits of the number. -/
theorem toDigits_ofDigitChars_of_pos (h : ∀ c ∈ ds, c.isDigit = true) (hn : 0 < n) :
    Nat.toDigits 10 (Nat.ofDigitChars 10 ds n) = Nat.toDigits 10 n ++ ds := by
  induction ds generalizing n with
  | nil => rw [Nat.ofDigitChars_nil, List.append_nil]
  | cons c ds ih =>
    obtain ⟨hlt, hvalue⟩ := digitChar_of_isDigit (h c List.mem_cons_self)
    have hds : ∀ c ∈ ds, c.isDigit = true := fun c hc => h c (List.mem_cons_of_mem _ hc)
    rw [Nat.ofDigitChars_cons, ih hds (by omega),
      ← Nat.toDigits_append_toDigits (by decide) hn hlt, Nat.toDigits_of_lt_base hlt, hvalue,
      List.append_assoc, List.singleton_append]

/-- Digits stand for the number that is written without the zeros in front. -/
theorem toDigits_ofDigitChars (h : ∀ c ∈ ds, c.isDigit = true) :
    Nat.toDigits 10 (Nat.ofDigitChars 10 ds 0) = significant ds := by
  induction ds with
  | nil => rfl
  | cons d ds ih =>
    have hds : ∀ c ∈ ds, c.isDigit = true := fun c hc => h c (List.mem_cons_of_mem _ hc)
    by_cases hd : d = '0'
    · rw [hd, ofDigitChars_zero_cons, ih hds, significant, significant,
        List.dropWhile_cons_of_pos (by decide)]
    · obtain ⟨hlt, hvalue⟩ := digitChar_of_isDigit (h d List.mem_cons_self)
      have hpos : 0 < 10 * 0 + (d.toNat - '0'.toNat) := by
        rw [Nat.mul_zero, Nat.zero_add]
        refine Nat.pos_of_ne_zero fun hnone => hd ?_
        rw [← hvalue, hnone]
        rfl
      rw [significant, List.dropWhile_cons_of_neg (by simpa using hd), Nat.ofDigitChars_cons,
        toDigits_ofDigitChars_of_pos hds hpos, Nat.mul_zero, Nat.zero_add,
        Nat.toDigits_of_lt_base hlt, hvalue, List.singleton_append]

/-! ## The ends of a number -/

theorem head?_toDigits_ne (h : 0 < n) : (Nat.toDigits 10 n).head? ≠ some '0' := by
  induction n using Nat.strongRecOn with
  | ind n ih =>
    rcases Nat.lt_or_ge n 10 with hlt | hge
    · have hdigit : ∀ k < 10, 0 < k → Nat.digitChar k ≠ '0' := by decide
      rw [Nat.toDigits_of_lt_base hlt]
      simpa using hdigit n hlt h
    · have hfront := ih (n / 10) (Nat.div_lt_self h (by decide)) (by omega)
      obtain ⟨d, ds, hds⟩ :=
        List.exists_cons_of_ne_nil (Nat.toDigits_ne_nil (n := n / 10) (b := 10))
      rw [hds, List.head?_cons] at hfront
      rwa [Nat.toDigits_of_base_le (by decide) hge, hds, List.cons_append, List.head?_cons]

/-- The last digit is the remainder by ten. -/
theorem getLast?_toDigits (n : Nat) :
    (Nat.toDigits 10 n).getLast? = some (Nat.digitChar (n % 10)) := by
  rcases Nat.lt_or_ge n 10 with h | h
  · rw [Nat.toDigits_of_lt_base h, Nat.mod_eq_of_lt h]
    rfl
  · rw [Nat.toDigits_of_base_le (by decide) h, List.getLast?_concat]

theorem getLast?_toDigits_ne (h : n % 10 ≠ 0) : (Nat.toDigits 10 n).getLast? ≠ some '0' := by
  have hdigit : ∀ k < 10, k ≠ 0 → Nat.digitChar k ≠ '0' := by decide
  rw [getLast?_toDigits]
  simpa using hdigit _ (Nat.mod_lt n (by decide)) h

end Digits

end Scriptlet
