import Mathlib.Algebra.Field.Rat
import Mathlib.Algebra.Order.Field.Power
import Mathlib.Algebra.Order.Ring.Rat
import Mathlib.Tactic.Linarith
import Mathlib.Tactic.Ring
import Scriptlet.Decimal.Shortest
import Scriptlet.Proofs.Decimal.Digits

/-!
The shortest decimal of a float does not end in zero: a decimal that did would have been found
already with one digit less. Seventeen digits are always enough, for the interval of the numbers
that round to the float is then wider than a unit of the last digit.
-/

namespace Scriptlet

namespace Rounding

/-- The interval holds the number. -/
def Holds (r : Rounding) (q : ℚ) : Prop :=
  if r.closed then r.low ≤ q * r.den ∧ q * r.den ≤ r.high
  else r.low < q * r.den ∧ q * r.den < r.high

/-- The value lies inside of its interval. -/
structure WellFormed (r : Rounding) : Prop where
  den_pos : 0 < r.den
  low_lt : r.low < r.value
  lt_high : r.value < r.high

variable {r : Rounding} {m n : Nat} {s : Int}

theorem contains_iff_holds : r.contains n = true ↔ r.Holds n := by
  unfold contains Holds
  split
  · rw [Bool.and_eq_true, decide_eq_true_eq, decide_eq_true_eq]
    norm_cast
  · rw [Bool.and_eq_true, decide_eq_true_eq, decide_eq_true_eq]
    norm_cast

/-! ## Units of the last digit -/

theorem pow_toNat {a : ℚ} (ha : a ≠ 0) (s : Int) : a ^ s.toNat = a ^ s * a ^ (-s).toNat := by
  rw [← zpow_natCast, ← zpow_natCast, ← zpow_add₀ ha]
  congr 1
  omega

theorem natCast_mul_pow (n k : Nat) : ((n * Nat.pow 10 k : Nat) : ℚ) = n * 10 ^ k := by
  rw [Nat.pow_eq, Nat.cast_mul, Nat.cast_pow, Nat.cast_ofNat]

theorem den_measuredIn (r : Rounding) (s : Int) :
    ((r.measuredIn s).den : ℚ) = 10 ^ s * r.den * 10 ^ (-s).toNat := by
  rw [measuredIn, natCast_mul_pow, pow_toNat (by norm_num)]
  ring

theorem holds_measuredIn {q : ℚ} : (r.measuredIn s).Holds q ↔ r.Holds (q * 10 ^ s) := by
  have hunit : (0 : ℚ) < 10 ^ (-s).toNat := by positivity
  have hden : q * ((r.measuredIn s).den : ℚ) = q * 10 ^ s * r.den * 10 ^ (-s).toNat := by
    rw [den_measuredIn]
    ring
  rw [Holds, Holds, hden]
  simp only [measuredIn, natCast_mul_pow, mul_le_mul_iff_of_pos_right hunit,
    mul_lt_mul_iff_of_pos_right hunit]

theorem WellFormed.measuredIn (h : r.WellFormed) (s : Int) : (r.measuredIn s).WellFormed where
  den_pos := Nat.mul_pos h.den_pos (Nat.pow_pos (by decide))
  low_lt := Nat.mul_lt_mul_of_pos_right h.low_lt (Nat.pow_pos (by decide))
  lt_high := Nat.mul_lt_mul_of_pos_right h.lt_high (Nat.pow_pos (by decide))

/-- A zero at the end can be left out. -/
theorem contains_measuredIn_succ :
    (r.measuredIn (s + 1)).contains n = true ↔ (r.measuredIn s).contains (10 * n) = true := by
  rw [contains_iff_holds, contains_iff_holds, holds_measuredIn, holds_measuredIn,
    zpow_add_one₀ (by norm_num), Nat.cast_mul, Nat.cast_ofNat]
  ring_nf

/-! ## Whole numbers of an interval -/

/-- The ends of a closed interval count as if it went on by one. -/
theorem contains_iff : r.contains n = true ↔
    r.low < n * r.den + r.closed.toNat ∧ n * r.den < r.high + r.closed.toNat := by
  unfold contains
  cases r.closed with
  | true =>
    rw [if_pos rfl, Bool.toNat_true, Bool.and_eq_true, decide_eq_true_eq, decide_eq_true_eq,
      Nat.lt_succ_iff, Nat.lt_succ_iff]
  | false => simp

theorem contains_of_le (hr : r.WellFormed) (h : r.contains m = true) (hmn : m ≤ n)
    (hn : n * r.den ≤ r.value) : r.contains n = true := by
  have hle : m * r.den ≤ n * r.den := Nat.mul_le_mul_right _ hmn
  have hhigh := hr.lt_high
  rw [contains_iff] at h ⊢
  omega

theorem contains_of_ge (hr : r.WellFormed) (h : r.contains m = true) (hnm : n ≤ m)
    (hn : r.value < n * r.den) : r.contains n = true := by
  have hle : n * r.den ≤ m * r.den := Nat.mul_le_mul_right _ hnm
  have hlow := hr.low_lt
  rw [contains_iff] at h ⊢
  omega

theorem whole?_eq_some (h : r.whole? = some n) :
    r.contains n = true ∧ r.value / r.den ≤ n ∧ n ≤ r.value / r.den + 1 := by
  unfold whole? at h
  dsimp only at h
  split at h
  · next hbelow habove =>
    cases h
    split
    · exact ⟨hbelow, Nat.le_refl _, Nat.le_succ _⟩
    · exact ⟨habove, Nat.le_succ _, Nat.le_refl _⟩
  · next hbelow _ =>
    cases h
    exact ⟨hbelow, Nat.le_refl _, Nat.le_succ _⟩
  · next _ habove =>
    cases h
    exact ⟨habove, Nat.le_succ _, Nat.le_refl _⟩
  · cases h

theorem whole?_eq_none (h : r.whole? = none) :
    r.contains (r.value / r.den) = false ∧ r.contains (r.value / r.den + 1) = false := by
  unfold whole? at h
  dsimp only at h
  split at h
  · cases h
  · cases h
  · cases h
  · next hbelow habove => exact ⟨hbelow, habove⟩

theorem WellFormed.lt_succ_mul (hr : r.WellFormed) : r.value < (r.value / r.den + 1) * r.den :=
  Nat.lt_mul_of_div_lt (Nat.lt_succ_self _) hr.den_pos

/-- If the interval holds a whole number, it holds one next to the value. -/
theorem exists_whole? (hr : r.WellFormed) (h : r.contains n = true) : ∃ m, r.whole? = some m := by
  rw [← Option.ne_none_iff_exists']
  intro hnone
  obtain ⟨hbelow, habove⟩ := whole?_eq_none hnone
  rcases Nat.lt_or_ge (r.value / r.den) n with hlt | hge
  · cases habove.symm.trans (contains_of_ge hr h hlt hr.lt_succ_mul)
  · cases hbelow.symm.trans (contains_of_le hr h hge (Nat.div_mul_le_self ..))

/-- An interval that is wider than a unit holds a whole number. -/
theorem exists_whole?_of_lt (hr : r.WellFormed) (h : r.low + r.den < r.high) :
    ∃ m, r.whole? = some m := by
  rw [← Option.ne_none_iff_exists']
  intro hnone
  obtain ⟨hbelow, habove⟩ := whole?_eq_none hnone
  rw [← Bool.not_eq_true, contains_iff] at hbelow habove
  have hfloor := Nat.div_mul_le_self r.value r.den
  have hceil := hr.lt_succ_mul
  have hlow := hr.low_lt
  have hhigh := hr.lt_high
  rw [Nat.add_mul, Nat.one_mul] at hceil habove
  omega

/-! ## The exponent of the first digit -/

theorem exists_digitCount (n : Nat) : ∃ k, digitCount n = k + 1 ∧ n < 10 ^ (k + 1) ∧
    (0 < n → 10 ^ k ≤ n) := by
  obtain ⟨k, hk⟩ : ∃ k, (Nat.toDigits 10 n).length = k + 1 :=
    Nat.exists_eq_succ_of_ne_zero (Nat.ne_of_gt Nat.length_toDigits_pos)
  refine ⟨k, hk, (Nat.length_toDigits_le_iff (by decide) k.succ_pos).1 (Nat.le_of_eq hk), ?_⟩
  intro hn
  cases k with
  | zero => exact hn
  | succ k =>
    rw [← Nat.not_lt, ← Nat.length_toDigits_le_iff (by decide) k.succ_pos, hk]
    exact Nat.not_succ_le_self _

/-- The exponent of a value that is no less than one. -/
theorem exists_exponent_of_le (hr : r.WellFormed) (h : r.den ≤ r.value) :
    ∃ k : Nat, r.exponent = k ∧ 10 ^ k * r.den ≤ r.value ∧ r.value < 10 ^ (k + 1) * r.den := by
  obtain ⟨k, hk, hlt, hle⟩ := exists_digitCount (r.value / r.den)
  refine ⟨k, ?_, ?_, ?_⟩
  · rw [exponent, if_pos h, hk]
    omega
  · exact (Nat.le_div_iff_mul_le hr.den_pos).1 (hle (Nat.div_pos h hr.den_pos))
  · exact (Nat.div_lt_iff_lt_mul hr.den_pos).1 hlt

/-- The exponent of a value below one: how many digits the greatest whole number has that the value
goes into less often than into one. -/
theorem exists_exponent_of_lt (hr : r.WellFormed) (h : r.value < r.den) :
    ∃ k : Nat, r.exponent = -(k + 1 : Int) ∧ r.den ≤ r.value * 10 ^ (k + 1) ∧
      r.value * 10 ^ k < r.den := by
  have hpos : 0 < r.value := Nat.zero_lt_of_lt hr.low_lt
  obtain ⟨n, hn⟩ : ∃ n, (r.den + r.value - 1) / r.value = n + 1 :=
    Nat.exists_eq_succ_of_ne_zero (Nat.ne_of_gt (Nat.div_pos (by omega) hpos))
  have hlower : (n + 1) * r.value ≤ r.den + r.value - 1 := hn ▸ Nat.div_mul_le_self ..
  have hupper : r.den + r.value - 1 < (n + 1 + 1) * r.value :=
    Nat.lt_mul_of_div_lt (by omega) hpos
  obtain ⟨k, hk, hlt, hle⟩ := exists_digitCount n
  rw [Nat.add_mul, Nat.one_mul] at hlower hupper
  have hn' : 0 < n := by
    refine Nat.pos_of_ne_zero ?_
    rintro rfl
    omega
  refine ⟨k, ?_, ?_, ?_⟩
  · rw [exponent, if_neg (Nat.not_le.2 h), hn, Nat.add_sub_cancel, hk]
    rfl
  · calc r.den ≤ (n + 1) * r.value := by omega
      _ ≤ 10 ^ (k + 1) * r.value := Nat.mul_le_mul_right _ hlt
      _ = r.value * 10 ^ (k + 1) := Nat.mul_comm ..
  · calc r.value * 10 ^ k ≤ r.value * n := Nat.mul_le_mul_left _ (hle hn')
      _ = n * r.value := Nat.mul_comm ..
      _ < r.den := by omega

/-- The first digit of the value has the exponent. -/
theorem exponent_spec (hr : r.WellFormed) :
    (10 : ℚ) ^ r.exponent * r.den ≤ r.value ∧ r.value < (10 : ℚ) ^ (r.exponent + 1) * r.den := by
  rcases Nat.lt_or_ge r.value r.den with h | h
  · obtain ⟨k, hk, hle, hlt⟩ := exists_exponent_of_lt hr h
    have hnext : r.exponent + 1 = -(k : Int) := by omega
    have hk' : r.exponent = -((k + 1 : Nat) : Int) := by rw [hk]; rfl
    rw [hnext, hk', zpow_neg, zpow_neg, zpow_natCast, zpow_natCast, inv_mul_le_iff₀ (by positivity),
      lt_inv_mul_iff₀ (by positivity)]
    rw [Nat.mul_comm] at hle hlt
    exact ⟨mod_cast hle, mod_cast hlt⟩
  · obtain ⟨k, hk, hle, hlt⟩ := exists_exponent_of_le hr h
    rw [hk, ← Nat.cast_succ, zpow_natCast, zpow_natCast]
    exact ⟨mod_cast hle, mod_cast hlt⟩

/-! ## Decimals of an interval -/

/-- With `k` digits after the first one the value has `k + 1` digits before the point. -/
theorem floor_measuredIn (hr : r.WellFormed) (k : Nat) :
    10 ^ k ≤ (r.measuredIn (r.exponent - k)).value / (r.measuredIn (r.exponent - k)).den ∧
      (r.measuredIn (r.exponent - k)).value / (r.measuredIn (r.exponent - k)).den <
        10 ^ (k + 1) := by
  obtain ⟨hle, hlt⟩ := exponent_spec hr
  have hpos := (hr.measuredIn (r.exponent - k)).den_pos
  have hunit : (0 : ℚ) < 10 ^ (-(r.exponent - k)).toNat := by positivity
  have hscale (j : Nat) : ((10 ^ j * (r.measuredIn (r.exponent - k)).den : Nat) : ℚ) =
      10 ^ (r.exponent - k + j) * r.den * 10 ^ (-(r.exponent - k)).toNat := by
    rw [Nat.cast_mul, den_measuredIn, zpow_add₀ (by norm_num), zpow_natCast, Nat.cast_pow,
      Nat.cast_ofNat]
    ring
  have hvalue : ((r.measuredIn (r.exponent - k)).value : ℚ) =
      r.value * 10 ^ (-(r.exponent - k)).toNat := natCast_mul_pow ..
  rw [Nat.le_div_iff_mul_le hpos, Nat.div_lt_iff_lt_mul hpos, ← Nat.cast_le (α := ℚ),
    ← Nat.cast_lt (α := ℚ), hscale, hscale, hvalue, mul_le_mul_iff_of_pos_right hunit,
    mul_lt_mul_iff_of_pos_right hunit, Int.sub_add_cancel, Nat.cast_succ, ← Int.add_assoc,
    Int.sub_add_cancel]
  exact ⟨hle, hlt⟩

theorem decimal?_eq_some {k : Nat} {d : Decimal} (h : r.decimal? r.exponent (k + 1) = some d) :
    ∃ n, (r.measuredIn (r.exponent - k)).whole? = some n ∧
      d = if n = 10 ^ (k + 1) then ⟨1, r.exponent + 1⟩ else ⟨n, r.exponent - k⟩ := by
  have hscale : r.exponent + 1 - ((k + 1 : Nat) : Int) = r.exponent - k := by omega
  have hnext : r.exponent - k + ((k + 1 : Nat) : Int) = r.exponent + 1 := by omega
  obtain ⟨n, hn, rfl⟩ := Option.map_eq_some_iff.1 h
  rw [hscale] at hn
  rw [hscale, hnext]
  exact ⟨n, hn, rfl⟩

theorem decimal?_eq_none {k : Nat} (h : r.decimal? r.exponent (k + 1) = none) :
    (r.measuredIn (r.exponent - k)).whole? = none := by
  have hscale : r.exponent + 1 - ((k + 1 : Nat) : Int) = r.exponent - k := by omega
  rw [← hscale]
  exact Option.map_eq_none_iff.1 h

/-- A decimal with the fewest digits does not end in zero. -/
theorem coefficient_mod_ten {k : Nat} {d : Decimal} (hr : r.WellFormed)
    (h : r.decimal? r.exponent (k + 1) = some d)
    (hleast : ∀ j < k, r.decimal? r.exponent (j + 1) = none) : d.coefficient % 10 ≠ 0 := by
  obtain ⟨n, hn, rfl⟩ := decimal?_eq_some h
  obtain ⟨hcontains, hge, hle⟩ := whole?_eq_some hn
  obtain ⟨hlow, hhigh⟩ := floor_measuredIn hr k
  split
  · exact Nat.one_ne_zero
  · next hne =>
    intro hzero
    obtain ⟨m, rfl⟩ := Nat.dvd_of_mod_eq_zero hzero
    cases k with
    | zero => omega
    | succ k =>
      have hcoarse : r.exponent - k = r.exponent - ((k + 1 : Nat) : Int) + 1 := by omega
      have hshorter : (r.measuredIn (r.exponent - k)).contains m = true := by
        rw [hcoarse, contains_measuredIn_succ]
        exact hcontains
      obtain ⟨m', hm'⟩ := exists_whole? (hr.measuredIn _) hshorter
      cases hm'.symm.trans (decimal?_eq_none (hleast k (Nat.lt_succ_self k)))

/-- Seventeen digits are enough if the value is not too many times as large as the interval is
wide. -/
theorem exists_decimal?_seventeen (hr : r.WellFormed)
    (h : r.value + r.low * 10 ^ 16 < r.high * 10 ^ 16) :
    ∃ d, r.decimal? r.exponent 17 = some d := by
  obtain ⟨hfloor, -⟩ := floor_measuredIn hr 16
  have hmeasured := hr.measuredIn (r.exponent - (16 : Nat))
  rw [Nat.le_div_iff_mul_le hmeasured.den_pos] at hfloor
  have hwide : (r.measuredIn (r.exponent - (16 : Nat))).value +
      (r.measuredIn (r.exponent - (16 : Nat))).low * 10 ^ 16 <
        (r.measuredIn (r.exponent - (16 : Nat))).high * 10 ^ 16 := by
    have hunit : 0 < Nat.pow 10 (-(r.exponent - (16 : Nat))).toNat := Nat.pow_pos (by decide)
    have hscaled := Nat.mul_lt_mul_of_pos_right h hunit
    rwa [Nat.add_mul, Nat.mul_right_comm, Nat.mul_right_comm r.high] at hscaled
  rw [← Option.ne_none_iff_exists']
  intro hnone
  obtain ⟨m, hm⟩ := exists_whole?_of_lt hmeasured (by omega)
  cases hm.symm.trans (decimal?_eq_none (k := 16) hnone)

end Rounding

/-! ## Floats -/

/-- The first number of a range with a result is the least one. -/
theorem exists_least_of_findSome?_range {α : Type} {f : Nat → Option α} {n : Nat} {a : α}
    (h : (List.range n).findSome? f = some a) : ∃ k, f k = some a ∧ ∀ j < k, f j = none := by
  obtain ⟨before, k, after, hrange, hk, hbefore⟩ := List.findSome?_eq_some_iff.1 h
  refine ⟨k, hk, fun j hj => hbefore j ?_⟩
  have hsorted : (before ++ k :: after).Pairwise (· < ·) := hrange ▸ List.pairwise_lt_range
  have hkn : k ∈ List.range n := hrange ▸ List.mem_append_right _ List.mem_cons_self
  have hjn : j ∈ before ++ k :: after :=
    hrange ▸ List.mem_range.2 (Nat.lt_trans hj (List.mem_range.1 hkn))
  rcases List.mem_append.1 hjn with hmem | hmem
  · exact hmem
  · rcases List.mem_cons.1 hmem with rfl | hmem
    · exact absurd hj (Nat.lt_irrefl j)
    · have := List.rel_of_pairwise_cons (List.pairwise_append.1 hsorted).2.1 hmem
      omega

/-- The mantissa of a float has at most 53 bits. Only a power of two has its lower neighbour
nearer. -/
structure Binary.WellFormed (b : Binary) : Prop where
  pos : 0 < b.mantissa
  lt : b.mantissa < 2 ^ 53
  narrow : b.narrowBelow = true → b.mantissa = 2 ^ 52

namespace Binary.WellFormed

variable {b : Binary}

theorem ofBinary (hb : b.WellFormed) : (Rounding.ofBinary b).WellFormed := by
  have hpos := hb.pos
  have hunit : 0 < Nat.pow 2 (b.exponent - 2).toNat := Nat.pow_pos (by decide)
  refine ⟨Nat.pow_pos (by decide), Nat.mul_lt_mul_of_pos_right ?_ hunit,
    Nat.mul_lt_mul_of_pos_right ?_ hunit⟩
  · split <;> omega
  · omega

theorem value_lt (hb : b.WellFormed) : (Rounding.ofBinary b).value +
    (Rounding.ofBinary b).low * 10 ^ 16 < (Rounding.ofBinary b).high * 10 ^ 16 := by
  have hpos := hb.pos
  have hlt := hb.lt
  have hnarrow := hb.narrow
  have hunit : 0 < Nat.pow 2 (b.exponent - 2).toNat := Nat.pow_pos (by decide)
  have hwide : 4 * b.mantissa + (4 * b.mantissa - if b.narrowBelow then 1 else 2) * 10 ^ 16 <
      (4 * b.mantissa + 2) * 10 ^ 16 := by
    split
    · next h =>
      have := hnarrow h
      omega
    · omega
  have hscaled := Nat.mul_lt_mul_of_pos_right hwide hunit
  rwa [Nat.add_mul, Nat.mul_right_comm _ (10 ^ 16), Nat.mul_right_comm _ (10 ^ 16)] at hscaled

/-- The shortest decimal is the one of the fewest digits. -/
theorem exists_decimal?_eq_shortest (hb : b.WellFormed) : ∃ k,
    (Rounding.ofBinary b).decimal? (Rounding.ofBinary b).exponent (k + 1) = some b.shortest ∧
      ∀ j < k, (Rounding.ofBinary b).decimal? (Rounding.ofBinary b).exponent (j + 1) = none := by
  obtain ⟨d₁₇, hd₁₇⟩ := Rounding.exists_decimal?_seventeen hb.ofBinary hb.value_lt
  have hsome : ∃ d, (List.range 17).findSome? (fun k => (Rounding.ofBinary b).decimal?
      (Rounding.ofBinary b).exponent (k + 1)) = some d := by
    rw [← Option.ne_none_iff_exists']
    intro hnone
    rw [List.findSome?_eq_none_iff] at hnone
    cases hd₁₇.symm.trans (hnone 16 (by decide))
  obtain ⟨d, hd⟩ := hsome
  rw [shortest, hd, Option.getD_some]
  exact exists_least_of_findSome?_range hd

/-- The shortest decimal does not end in zero. -/
theorem shortest_mod_ten (hb : b.WellFormed) : b.shortest.coefficient % 10 ≠ 0 := by
  obtain ⟨k, hk, hleast⟩ := hb.exists_decimal?_eq_shortest
  exact Rounding.coefficient_mod_ten hb.ofBinary hk hleast

end Binary.WellFormed

end Scriptlet
