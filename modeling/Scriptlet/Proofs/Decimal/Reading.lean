import Scriptlet.Proofs.Decimal.Neighbours

/-!
Floats as they are read. The parts of a float's bits are those that the model of floats unpacks, so
a finite float other than zero is read as a binary fraction, with the sign that comparison with zero
gives it.
-/

namespace Scriptlet

open Float.Model Float.Model.UnpackedFloat

/-! ## Parts of the bits -/

theorem toNat_unpackExponent (bits : BitVec 64) :
    (@unpackExponent .binary64 bits).toNat = bits.toNat / 2 ^ 52 % 2 ^ 11 := by
  rw [unpackExponent, BitVec.toNat_cast, BitVec.extractLsb_toNat, Nat.shiftRight_eq_div_pow]
  rfl

theorem toNat_unpackMantissa (bits : BitVec 64) :
    (@unpackMantissa .binary64 bits).toNat = bits.toNat % 2 ^ 52 := by
  rw [unpackMantissa, BitVec.toNat_cast, BitVec.extractLsb_toNat, Nat.shiftRight_zero]
  rfl

theorem toNat_unpackSign (bits : BitVec 64) :
    (@unpackSign .binary64 bits).toNat = bits.toNat / 2 ^ 63 := by
  have hextract : (@unpackSign .binary64 bits).toNat = (bits.extractLsb 63 63).toNat := rfl
  rw [hextract, BitVec.extractLsb_toNat, Nat.shiftRight_eq_div_pow]
  exact Nat.mod_eq_of_lt (Nat.div_lt_of_lt_mul bits.isLt)

theorem sign_eq_negative_iff (bits : BitVec 64) :
    Sign.ofBitVec (@unpackSign .binary64 bits) = .negative ↔ bits.toNat / 2 ^ 63 = 1 := by
  have hlt : bits.toNat / 2 ^ 63 < 2 := Nat.div_lt_of_lt_mul bits.isLt
  rw [← toNat_unpackSign] at hlt ⊢
  rw [Sign.ofBitVec]
  split
  · next h =>
    rw [h]
    exact iff_of_false (by simp) (by decide)
  · next h =>
    have hne : (@unpackSign .binary64 bits).toNat ≠ 0 := fun heq => h (BitVec.toNat_inj.1 heq)
    exact iff_of_true rfl (by omega)

/-- What bits are unpacked to is seen from the exponent and the fraction. -/
theorem unpack_cases (bits : BitVec 64) :
    (bits.toNat / 2 ^ 52 % 2 ^ 11 = 2047 ∧ bits.toNat % 2 ^ 52 ≠ 0 ∧
      UnpackedFloat.unpack .binary64 bits = .notANumber) ∨
    (bits.toNat / 2 ^ 52 % 2 ^ 11 = 2047 ∧ bits.toNat % 2 ^ 52 = 0 ∧
      UnpackedFloat.unpack .binary64 bits = .infinity (Sign.ofBitVec (@unpackSign .binary64 bits))) ∨
    (bits.toNat / 2 ^ 52 % 2 ^ 11 = 0 ∧ bits.toNat % 2 ^ 52 = 0 ∧
      UnpackedFloat.unpack .binary64 bits = .zero (Sign.ofBitVec (@unpackSign .binary64 bits))) ∨
    (bits.toNat / 2 ^ 52 % 2 ^ 11 ≠ 2047 ∧
      (bits.toNat / 2 ^ 52 % 2 ^ 11 = 0 → bits.toNat % 2 ^ 52 ≠ 0) ∧
      ∃ m e hm, UnpackedFloat.unpack .binary64 bits =
        .finite (Sign.ofBitVec (@unpackSign .binary64 bits)) m e hm) := by
  rw [← toNat_unpackExponent, ← toNat_unpackMantissa]
  unfold UnpackedFloat.unpack
  dsimp only
  by_cases hexponent : @unpackExponent .binary64 bits = -1#11
  · have hmost : (@unpackExponent .binary64 bits).toNat = 2047 := congrArg BitVec.toNat hexponent
    rw [if_pos hexponent]
    by_cases hmantissa : @unpackMantissa .binary64 bits = 0#52
    · rw [if_pos hmantissa]
      exact .inr (.inl ⟨hmost, congrArg BitVec.toNat hmantissa, rfl⟩)
    · rw [if_neg hmantissa]
      exact .inl ⟨hmost, fun heq => hmantissa (BitVec.toNat_inj.1 heq), rfl⟩
  · have hfinite : (@unpackExponent .binary64 bits).toNat ≠ 2047 := fun heq =>
      hexponent (BitVec.toNat_inj.1 heq)
    rw [if_neg hexponent]
    by_cases hzero : @unpackExponent .binary64 bits = 0#11
    · have hleast : (@unpackExponent .binary64 bits).toNat = 0 := congrArg BitVec.toNat hzero
      rw [if_pos hzero]
      by_cases hmantissa : @unpackMantissa .binary64 bits = 0#52
      · rw [dif_pos hmantissa]
        exact .inr (.inr (.inl ⟨hleast, congrArg BitVec.toNat hmantissa, rfl⟩))
      · have hne : (@unpackMantissa .binary64 bits).toNat ≠ 0 := fun heq =>
          hmantissa (BitVec.toNat_inj.1 heq)
        rw [dif_neg hmantissa]
        exact .inr (.inr (.inr ⟨hfinite, fun _ => hne, _, _, Nat.pos_of_ne_zero hne, rfl⟩))
    · have hpos : 0 < (1#1 ++ @unpackMantissa .binary64 bits).toNat := by
        rw [BitVec.toNat_append]
        exact Nat.lt_of_lt_of_le (by decide) Nat.left_le_or
      rw [if_neg hzero]
      exact .inr (.inr (.inr ⟨hfinite, fun heq => absurd (BitVec.toNat_inj.1 heq) hzero, _, _, hpos,
        rfl⟩))

/-- The bits of a finite float other than zero. -/
theorem of_unpack_eq_finite {bits : BitVec 64} {s : Sign} {m : Nat} {e : Int} {hm : 0 < m}
    (h : UnpackedFloat.unpack .binary64 bits = .finite s m e hm) :
    bits.toNat / 2 ^ 52 % 2 ^ 11 ≠ 2047 ∧
      (bits.toNat / 2 ^ 52 % 2 ^ 11 = 0 → bits.toNat % 2 ^ 52 ≠ 0) ∧
      (s = .negative ↔ bits.toNat / 2 ^ 63 = 1) := by
  rcases unpack_cases bits with ⟨-, -, hunpack⟩ | ⟨-, -, hunpack⟩ | ⟨-, -, hunpack⟩ |
    ⟨hexponent, hfraction, _, _, _, hunpack⟩
  · cases hunpack.symm.trans h
  · cases hunpack.symm.trans h
  · cases hunpack.symm.trans h
  · cases hunpack.symm.trans h
    exact ⟨hexponent, hfraction, sign_eq_negative_iff bits⟩

/-- The bits of what is no number. -/
theorem isNaN_unpack_iff (bits : BitVec 64) : (UnpackedFloat.unpack .binary64 bits).isNaN = true ↔
    bits.toNat / 2 ^ 52 % 2 ^ 11 = 2047 ∧ bits.toNat % 2 ^ 52 ≠ 0 := by
  rcases unpack_cases bits with ⟨he, hf, h⟩ | ⟨-, hf, h⟩ | ⟨he, -, h⟩ | ⟨he, -, _, _, _, h⟩
  · rw [h]
    exact iff_of_true rfl ⟨he, hf⟩
  · rw [h]
    exact iff_of_false Bool.false_ne_true fun hnan => hnan.2 hf
  · rw [h, he]
    exact iff_of_false Bool.false_ne_true fun hnan => absurd hnan.1 (by decide)
  · rw [h]
    exact iff_of_false Bool.false_ne_true fun hnan => he hnan.1

/-- The bits of zero, whose sign does not matter. -/
theorem beq_unpack_zero_iff (bits : BitVec 64) :
    (UnpackedFloat.unpack .binary64 bits).beq (.zero .positive) = true ↔
      bits.toNat / 2 ^ 52 % 2 ^ 11 = 0 ∧ bits.toNat % 2 ^ 52 = 0 := by
  rcases unpack_cases bits with ⟨he, -, h⟩ | ⟨he, -, h⟩ | ⟨he, hf, h⟩ | ⟨-, hf, _, _, _, h⟩
  · rw [h, he]
    exact iff_of_false Bool.false_ne_true fun hzero => absurd hzero.1 (by decide)
  · rw [h, he]
    refine iff_of_false ?_ fun hzero => absurd hzero.1 (by decide)
    cases Sign.ofBitVec (@unpackSign .binary64 bits) <;> decide
  · rw [h]
    exact iff_of_true rfl ⟨he, hf⟩
  · rw [h]
    refine iff_of_false ?_ fun hzero => hf hzero.1 hzero.2
    cases Sign.ofBitVec (@unpackSign .binary64 bits) <;> exact Bool.false_ne_true

/-! ## Floats -/

theorem Binary.normal_subnormal {fraction : Nat} (hpos : fraction ≠ 0) (hlt : fraction < 2 ^ 52) :
    (⟨fraction, -1074, false⟩ : Binary).Normal where
  pos := Nat.pos_of_ne_zero hpos
  lt := Nat.lt_trans hlt (by decide)
  narrow := Bool.noConfusion
  least := Int.le_refl _
  full h := absurd rfl h
  narrow_iff := iff_of_false Bool.false_ne_true fun h => h.2 rfl

theorem Binary.normal_full {fraction exponent : Nat} (hlt : fraction < 2 ^ 52)
    (hpos : exponent ≠ 0) :
    (⟨2 ^ 52 + fraction, (exponent : Int) - 1075, fraction == 0 && exponent != 1⟩ : Binary).Normal where
  pos := Nat.lt_add_right _ (by decide)
  lt := Nat.add_lt_add_left hlt _
  narrow h := by
    rw [Bool.and_eq_true, beq_iff_eq] at h
    rw [h.1]
    rfl
  least := by
    dsimp only
    omega
  full _ := Nat.le_add_right _ _
  narrow_iff := by
    dsimp only
    rw [Bool.and_eq_true, beq_iff_eq, bne_iff_ne]
    omega

variable {x : Float}

theorem exists_unpack_of_isFinite (hfinite : x.isFinite = true) (hzero : (x == 0) = false) :
    ∃ s m e hm, x.toModel.unpack = .finite s m e hm ∧ (x < 0 ↔ s = .negative) := by
  have hunpack : (0 : Float).toModel.unpack = .zero .positive := by rfl
  have hbeq : x.toModel.unpack.beq (.zero .positive) = false := by
    rw [← hunpack]
    exact hzero
  have hlt : x < 0 ↔ x.toModel.unpack.lt (.zero .positive) = true := by
    rw [← hunpack]
    exact decide_eq_true_iff
  have hreal : x.toModel.unpack.isFinite = true := hfinite
  rw [hlt]
  cases h : x.toModel.unpack with
  | notANumber =>
    rw [h] at hreal
    cases hreal
  | infinity s =>
    rw [h] at hreal
    cases hreal
  | zero s =>
    rw [h] at hbeq
    cases hbeq
  | finite s m e hm =>
    refine ⟨s, m, e, hm, rfl, ?_⟩
    cases s with
    | negative => exact iff_of_true rfl rfl
    | positive => exact iff_of_false Bool.false_ne_true (by simp)

/-! ## Readings -/

namespace Reading

/-- What a float is read as is seen from the exponent and the fraction of its bits. -/
theorem ofFloat_cases (x : Float) :
    (x.toBits.toNat / 2 ^ 52 % 2 ^ 11 = 2047 ∧ x.toBits.toNat % 2 ^ 52 ≠ 0 ∧ ofFloat x = .nan) ∨
    (x.toBits.toNat / 2 ^ 52 % 2 ^ 11 = 2047 ∧ x.toBits.toNat % 2 ^ 52 = 0 ∧
      ofFloat x = .infinite (x.toBits.toNat / 2 ^ 63 == 1)) ∨
    (x.toBits.toNat / 2 ^ 52 % 2 ^ 11 = 0 ∧ x.toBits.toNat % 2 ^ 52 = 0 ∧
      ofFloat x = .zero (x.toBits.toNat / 2 ^ 63 == 1)) ∨
    ∃ b : Binary, b.Normal ∧ x.toBits.toNat / 2 ^ 52 % 2 ^ 11 ≠ 2047 ∧
      (b.exponent + 1074).toNat * 2 ^ 52 + b.mantissa = x.toBits.toNat % 2 ^ 63 ∧
      ofFloat x = .finite (x.toBits.toNat / 2 ^ 63 == 1) b := by
  rw [ofFloat]
  simp only [Nat.pow_eq]
  generalize x.toBits.toNat = n
  have hlt := Nat.mod_lt n (Nat.two_pow_pos 52)
  by_cases hmost : n / 2 ^ 52 % 2 ^ 11 = 2047
  · rw [if_pos hmost]
    by_cases hfraction : n % 2 ^ 52 = 0
    · exact .inr (.inl ⟨hmost, hfraction, if_pos hfraction⟩)
    · exact .inl ⟨hmost, hfraction, if_neg hfraction⟩
  · rw [if_neg hmost]
    by_cases hleast : n / 2 ^ 52 % 2 ^ 11 = 0
    · rw [if_pos hleast]
      by_cases hfraction : n % 2 ^ 52 = 0
      · exact .inr (.inr (.inl ⟨hleast, hfraction, if_pos hfraction⟩))
      · rw [if_neg hfraction]
        refine .inr (.inr (.inr ⟨_, Binary.normal_subnormal hfraction hlt, hmost, ?_, rfl⟩))
        dsimp only
        omega
    · rw [if_neg hleast]
      refine .inr (.inr (.inr ⟨_, Binary.normal_full hlt hleast, hmost, ?_, rfl⟩))
      dsimp only
      omega

/-- The binary fraction, if it is one, is that of a float. -/
def Normal : Reading → Prop
  | finite _ b => b.Normal
  | nan | infinite _ | zero _ => True

theorem normal_ofFloat (x : Float) : (ofFloat x).Normal := by
  rcases ofFloat_cases x with ⟨-, -, h⟩ | ⟨-, -, h⟩ | ⟨-, -, h⟩ | ⟨_, hb, -, -, h⟩
  · exact h ▸ trivial
  · exact h ▸ trivial
  · exact h ▸ trivial
  · exact h ▸ hb

theorem ofFloat_eq_nan_iff : ofFloat x = .nan ↔ x.isNaN = true := by
  refine Iff.trans ?_ (isNaN_unpack_iff x.toModel.toBits.toBitVec).symm
  rcases ofFloat_cases x with ⟨he, hf, h⟩ | ⟨-, hf, h⟩ | ⟨-, hf, h⟩ | ⟨_, -, he, -, h⟩
  · exact iff_of_true h ⟨he, hf⟩
  · exact iff_of_false (by simp [h]) fun hnan => hnan.2 hf
  · exact iff_of_false (by simp [h]) fun hnan => hnan.2 hf
  · exact iff_of_false (by simp [h]) fun hnan => he hnan.1

theorem exists_ofFloat_eq_zero_iff :
    (∃ negative, ofFloat x = .zero negative) ↔ (x == 0) = true := by
  refine Iff.trans ?_ (beq_unpack_zero_iff x.toModel.toBits.toBitVec).symm
  rcases ofFloat_cases x with ⟨-, hf, h⟩ | ⟨he, -, h⟩ | ⟨he, hf, h⟩ | ⟨b, hb, -, hbits, h⟩
  · exact iff_of_false (by simp [h]) fun hzero => hf hzero.2
  · exact iff_of_false (by simp [h]) fun hzero => absurd (he.symm.trans hzero.1) (by decide)
  · exact iff_of_true ⟨_, h⟩ ⟨he, hf⟩
  · refine iff_of_false (by simp [h]) ?_
    rintro ⟨he, hf⟩
    change x.toBits.toNat / 2 ^ 52 % 2 ^ 11 = 0 at he
    change x.toBits.toNat % 2 ^ 52 = 0 at hf
    have hpos := hb.pos
    omega

def signBit (negative : Bool) : Nat := if negative then 2 ^ 63 else 0

theorem signBit_eq {n : Nat} (h : n < 2 ^ 64) :
    signBit (n / 2 ^ 63 == 1) = n / 2 ^ 63 * 2 ^ 63 := by
  rw [signBit]
  split
  · next hone => rw [beq_iff_eq.1 hone, Nat.one_mul]
  · next hzero =>
    rw [beq_iff_eq] at hzero
    omega

/-- The bits of a float that is read so. -/
def bits : Reading → Nat
  | nan => 2047 * 2 ^ 52 + 2 ^ 51
  | infinite negative => signBit negative + 2047 * 2 ^ 52
  | zero negative => signBit negative
  | finite negative b => signBit negative + ((b.exponent + 1074).toNat * 2 ^ 52 + b.mantissa)

theorem bits_ofFloat (hx : ofFloat x ≠ .nan) : (ofFloat x).bits = x.toBits.toNat := by
  have hlt : x.toBits.toNat < 2 ^ 64 := x.toBits.toNat_lt
  have hsign := signBit_eq hlt
  rcases ofFloat_cases x with ⟨-, -, h⟩ | ⟨he, hf, h⟩ | ⟨he, hf, h⟩ | ⟨_, -, -, hb, h⟩
  · exact absurd h hx
  · rw [h, bits, hsign]
    omega
  · rw [h, bits, hsign]
    omega
  · rw [h, bits, hsign, hb, Nat.div_add_mod']

/-- A reading other than of what is no number is that of one float only. -/
theorem toBits_eq_of_ofFloat {y : Float} (h : ofFloat x = ofFloat y) (hx : ofFloat x ≠ .nan) :
    x.toBits = y.toBits := by
  rw [← UInt64.toNat_inj, ← bits_ofFloat hx, h, bits_ofFloat (h ▸ hx)]

end Reading

/-- A finite float other than zero is read as a binary fraction with its sign. -/
theorem exists_ofFloat_eq_finite (hfinite : x.isFinite = true) (hzero : (x == 0) = false) :
    ∃ b : Binary, Reading.ofFloat x = .finite (decide (x < 0)) b ∧ b.WellFormed := by
  obtain ⟨s, m, e, hm, hunpack, hsign⟩ := exists_unpack_of_isFinite hfinite hzero
  obtain ⟨hexponent, hfraction, hnegative⟩ := of_unpack_eq_finite hunpack
  have hflag : (x.toBits.toNat / 2 ^ 63 == 1) = decide (x < 0) := by
    rw [Bool.eq_iff_iff, beq_iff_eq, decide_eq_true_iff, hsign, hnegative]
    rfl
  rcases Reading.ofFloat_cases x with ⟨he, -⟩ | ⟨he, -⟩ | ⟨he, hf, -⟩ | ⟨b, hb, -, -, hread⟩
  · exact absurd he hexponent
  · exact absurd he hexponent
  · exact absurd hf (hfraction he)
  · exact ⟨b, hflag ▸ hread, hb.toWellFormed⟩

end Scriptlet
