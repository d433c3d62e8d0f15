import Scriptlet.Proofs.Decimal.Shortest

/-!
Neighbours among the floats. The interval of the numbers that round to a float ends where that of
its neighbour begins, and the number in between belongs to the one of the two whose mantissa is
even. So no number rounds to two floats, and the shortest decimal tells its float from all others.
-/

namespace Scriptlet

/-! ## Decimals in the interval -/

/-- The number that a decimal stands for. -/
def Decimal.value (d : Decimal) : ℚ := d.coefficient * 10 ^ d.scale

namespace Rounding

variable {r : Rounding}

/-- A decimal that is found lies in the interval. -/
theorem holds_of_decimal? {k : Nat} {d : Decimal} (h : r.decimal? r.exponent (k + 1) = some d) :
    r.Holds d.value := by
  obtain ⟨n, hn, rfl⟩ := decimal?_eq_some h
  have hholds := holds_measuredIn.1 (contains_iff_holds.1 (whole?_eq_some hn).1)
  split
  · next hpower =>
    -- ten to the power of the digits is one in the place before them
    have hvalue : (n : ℚ) * 10 ^ (r.exponent - k) = 1 * 10 ^ (r.exponent + 1) := by
      rw [hpower, Nat.cast_pow, Nat.cast_ofNat, ← zpow_natCast, ← zpow_add₀ (by norm_num), one_mul]
      congr 1
      omega
    rw [hvalue] at hholds
    simpa [Decimal.value] using hholds
  · exact hholds

end Rounding

/-! ## The ends of an interval -/

namespace Binary

/-- Half way to the lower neighbour, which may be nearer. -/
def lowerEnd (b : Binary) : ℚ :=
  (4 * b.mantissa - if b.narrowBelow then 1 else 2) * 2 ^ (b.exponent - 2)

/-- Half way to the upper neighbour. -/
def upperEnd (b : Binary) : ℚ := (4 * b.mantissa + 2) * 2 ^ (b.exponent - 2)

variable {b b' : Binary} {q : ℚ}

theorem natCast_unit (b : Binary) : ((Nat.pow 2 (b.exponent - 2).toNat : Nat) : ℚ) =
    2 ^ (b.exponent - 2) * (Rounding.ofBinary b).den := by
  rw [Rounding.ofBinary, Nat.pow_eq, Nat.pow_eq, Nat.cast_pow, Nat.cast_pow, Nat.cast_ofNat,
    Rounding.pow_toNat (by norm_num), Int.neg_sub]

theorem low_ofBinary (hb : b.WellFormed) :
    ((Rounding.ofBinary b).low : ℚ) = b.lowerEnd * (Rounding.ofBinary b).den := by
  have hpos := hb.pos
  have hle : (if b.narrowBelow then 1 else 2) ≤ 4 * b.mantissa := by split <;> omega
  have hlow : (Rounding.ofBinary b).low =
      (4 * b.mantissa - if b.narrowBelow then 1 else 2) * Nat.pow 2 (b.exponent - 2).toNat := rfl
  rw [hlow, Nat.cast_mul, natCast_unit, Nat.cast_sub hle, lowerEnd, mul_assoc]
  push_cast
  rfl

theorem high_ofBinary (b : Binary) :
    ((Rounding.ofBinary b).high : ℚ) = b.upperEnd * (Rounding.ofBinary b).den := by
  have hhigh : (Rounding.ofBinary b).high =
      (4 * b.mantissa + 2) * Nat.pow 2 (b.exponent - 2).toNat := rfl
  rw [hhigh, Nat.cast_mul, natCast_unit, upperEnd, mul_assoc]
  push_cast
  rfl

/-- What rounds to a float lies between the ends. -/
theorem WellFormed.bounds (hb : b.WellFormed) (h : (Rounding.ofBinary b).Holds q) :
    b.lowerEnd ≤ q ∧ q ≤ b.upperEnd := by
  have hden : (0 : ℚ) < (Rounding.ofBinary b).den := mod_cast hb.ofBinary.den_pos
  rw [Rounding.Holds, low_ofBinary hb, high_ofBinary, mul_le_mul_iff_of_pos_right hden,
    mul_le_mul_iff_of_pos_right hden, mul_lt_mul_iff_of_pos_right hden,
    mul_lt_mul_iff_of_pos_right hden] at h
  split at h
  · exact h
  · exact ⟨h.1.le, h.2.le⟩

/-- The ends belong to the neighbours if the mantissa is odd. -/
theorem WellFormed.strict_bounds (hb : b.WellFormed) (h : (Rounding.ofBinary b).Holds q)
    (hodd : b.mantissa % 2 = 1) : b.lowerEnd < q ∧ q < b.upperEnd := by
  have hden : (0 : ℚ) < (Rounding.ofBinary b).den := mod_cast hb.ofBinary.den_pos
  have hclosed : (Rounding.ofBinary b).closed = false := by
    simp [Rounding.ofBinary, hodd]
  rwa [Rounding.Holds, hclosed, if_neg Bool.false_ne_true, low_ofBinary hb, high_ofBinary,
    mul_lt_mul_iff_of_pos_right hden, mul_lt_mul_iff_of_pos_right hden] at h

/-! ## Floats apart -/

/-- The mantissa is as large as it can be for the exponent, which is at least -1074. -/
structure Normal (b : Binary) : Prop extends b.WellFormed where
  least : -1074 ≤ b.exponent
  full : b.exponent ≠ -1074 → 2 ^ 52 ≤ b.mantissa
  narrow_iff : b.narrowBelow = true ↔ b.mantissa = 2 ^ 52 ∧ b.exponent ≠ -1074

theorem not_holds_of_mantissa_lt (hb : b.Normal) (hb' : b'.Normal) (he : b.exponent = b'.exponent)
    (hm : b.mantissa < b'.mantissa) (h : (Rounding.ofBinary b).Holds q) :
    ¬(Rounding.ofBinary b').Holds q := by
  intro h'
  have hwide : b'.narrowBelow = false := by
    rw [Bool.eq_false_iff, ne_eq, hb'.narrow_iff]
    rintro ⟨hm', he'⟩
    have := hb.full (he ▸ he')
    omega
  have hlower : b'.lowerEnd = (4 * b'.mantissa - 2) * 2 ^ (b.exponent - 2) := by
    rw [lowerEnd, hwide, if_neg Bool.false_ne_true, he]
  have hunit : (0 : ℚ) < 2 ^ (b.exponent - 2) := by positivity
  have hmeet : b.upperEnd ≤ b'.lowerEnd := by
    have hle : (b.mantissa + 1 : ℚ) ≤ b'.mantissa := mod_cast hm
    rw [hlower, upperEnd]
    exact mul_le_mul_of_nonneg_right (by linarith) hunit.le
  have hupper := (hb.bounds h).2
  have hlow := (hb'.bounds h').1
  rcases Nat.mod_two_eq_zero_or_one b.mantissa with heven | hodd
  · rcases Nat.mod_two_eq_zero_or_one b'.mantissa with heven' | hodd'
    · -- two even mantissas are further apart
      have hle : (b.mantissa + 2 : ℚ) ≤ b'.mantissa := mod_cast (by omega)
      have hlt : b.upperEnd < b'.lowerEnd := by
        rw [hlower, upperEnd]
        exact mul_lt_mul_of_pos_right (by linarith) hunit
      linarith
    · linarith [(hb'.strict_bounds h' hodd').1]
  · linarith [(hb.strict_bounds h hodd).2]

/-- Above the least exponent no interval begins below half way between a power of two and its lower
neighbour. -/
theorem Normal.le_lowerEnd (hb : b.Normal) (he : b.exponent ≠ -1074) :
    (2 ^ 54 - 1) * 2 ^ (b.exponent - 2) ≤ b.lowerEnd := by
  refine mul_le_mul_of_nonneg_right ?_ (by positivity)
  have hfull := hb.full he
  cases hnarrow : b.narrowBelow with
  | true =>
    have hle : (2 ^ 52 : ℚ) ≤ b.mantissa := mod_cast hfull
    rw [if_pos rfl]
    linarith
  | false =>
    have hne : b.mantissa ≠ 2 ^ 52 := by
      intro hm
      rw [hb.narrow_iff.2 ⟨hm, he⟩] at hnarrow
      cases hnarrow
    have hle : (2 ^ 52 + 1 : ℚ) ≤ b.mantissa := mod_cast (by omega)
    rw [if_neg Bool.false_ne_true]
    linarith

/-- The interval of a float with a smaller exponent lies below. -/
theorem not_holds_of_exponent_lt (hb : b.Normal) (hb' : b'.Normal) (he : b.exponent < b'.exponent)
    (h : (Rounding.ofBinary b).Holds q) : ¬(Rounding.ofBinary b').Holds q := by
  intro h'
  have hleast := hb.least
  have hunit : (0 : ℚ) < 2 ^ (b.exponent - 2) := by positivity
  have hpower : 2 * (2 : ℚ) ^ (b.exponent - 2) ≤ 2 ^ (b'.exponent - 2) := by
    rw [← zpow_one_add₀ (by norm_num)]
    exact zpow_le_zpow_right₀ (by norm_num) (by omega)
  have hlower : (2 ^ 55 - 2) * (2 : ℚ) ^ (b.exponent - 2) ≤ b'.lowerEnd :=
    calc (2 ^ 55 - 2) * (2 : ℚ) ^ (b.exponent - 2)
        = (2 ^ 54 - 1) * (2 * 2 ^ (b.exponent - 2)) := by ring
      _ ≤ (2 ^ 54 - 1) * 2 ^ (b'.exponent - 2) := mul_le_mul_of_nonneg_left hpower (by norm_num)
      _ ≤ b'.lowerEnd := hb'.le_lowerEnd (by omega)
  have hlow := (hb'.bounds h').1
  rcases Nat.mod_two_eq_zero_or_one b.mantissa with heven | hodd
  · have hle : (b.mantissa + 2 : ℚ) ≤ 2 ^ 53 := mod_cast (by have := hb.lt; omega)
    have hupper := (hb.bounds h).2
    have hlt : b.upperEnd < (2 ^ 55 - 2) * (2 : ℚ) ^ (b.exponent - 2) :=
      mul_lt_mul_of_pos_right (by linarith) hunit
    linarith
  · have hle : (b.mantissa + 1 : ℚ) ≤ 2 ^ 53 := mod_cast hb.lt
    have hupper := (hb.strict_bounds h hodd).2
    have hmeet : b.upperEnd ≤ (2 ^ 55 - 2) * (2 : ℚ) ^ (b.exponent - 2) :=
      mul_le_mul_of_nonneg_right (by linarith) hunit.le
    linarith

/-- No number rounds to two floats. -/
theorem Normal.eq_of_holds (hb : b.Normal) (hb' : b'.Normal) (h : (Rounding.ofBinary b).Holds q)
    (h' : (Rounding.ofBinary b').Holds q) : b = b' := by
  have hexponent : b.exponent = b'.exponent := by
    rcases Int.lt_trichotomy b.exponent b'.exponent with hlt | heq | hgt
    · exact absurd h' (not_holds_of_exponent_lt hb hb' hlt h)
    · exact heq
    · exact absurd h (not_holds_of_exponent_lt hb' hb hgt h')
  have hmantissa : b.mantissa = b'.mantissa := by
    rcases Nat.lt_trichotomy b.mantissa b'.mantissa with hlt | heq | hgt
    · exact absurd h' (not_holds_of_mantissa_lt hb hb' hexponent hlt h)
    · exact heq
    · exact absurd h (not_holds_of_mantissa_lt hb' hb hexponent.symm hgt h')
  have hnarrow : b.narrowBelow = b'.narrowBelow := by
    rw [Bool.eq_iff_iff, hb.narrow_iff, hb'.narrow_iff, hexponent, hmantissa]
  obtain ⟨m, e, narrow⟩ := b
  obtain ⟨m', e', narrow'⟩ := b'
  cases hexponent
  cases hmantissa
  cases hnarrow
  rfl

/-- A float can be told from its shortest decimal. -/
theorem Normal.eq_of_value_shortest (hb : b.Normal) (hb' : b'.Normal)
    (h : b.shortest.value = b'.shortest.value) : b = b' := by
  obtain ⟨k, hk, -⟩ := hb.exists_decimal?_eq_shortest
  obtain ⟨k', hk', -⟩ := hb'.exists_decimal?_eq_shortest
  exact hb.eq_of_holds hb' (Rounding.holds_of_decimal? hk) (h ▸ Rounding.holds_of_decimal? hk')

end Binary

end Scriptlet
