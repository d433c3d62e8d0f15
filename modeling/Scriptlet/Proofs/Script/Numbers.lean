import Mathlib.Tactic.FieldSimp
import Scriptlet.Proofs.Decimal.Reading
import Scriptlet.Proofs.SyntaxTree.Writing
import Scriptlet.Proofs.Token.Tiling
import Scriptlet.Script.Literal

/-!
Numbers in scripts. Whichever way the digits of a float are laid out, the text stands for the
decimal that they are taken from, it is one token but for the sign, and no zero of it could be left
out.
-/

namespace Scriptlet

/-! ## Number texts -/

/-- The text up to the first `c`, and what follows that, if there is one. -/
def cutAt (c : Char) : List Char → List Char × Option (List Char)
  | [] => ([], none)
  | x :: cs =>
    if x = c then ([], some cs)
    else
      let (front, rest) := cutAt c cs
      (x :: front, rest)

/-- A number text without sign: the digits before the point, those after it, and what follows the
mark `e`. -/
structure NumberParts where
  whole : List Char
  fraction : Option (List Char)
  power : Option (List Char)

namespace NumberParts

def ofText (cs : List Char) : NumberParts :=
  let (mantissa, power) := cutAt 'e' cs
  let (whole, fraction) := cutAt '.' mantissa
  ⟨whole, fraction, power⟩

/-- The integer of digits with a sign. -/
def powerValue : List Char → Int
  | '-' :: ds => -Nat.ofDigitChars 10 ds 0
  | '+' :: ds => Nat.ofDigitChars 10 ds 0
  | ds => Nat.ofDigitChars 10 ds 0

/-- The rational that the parts stand for. -/
def value (p : NumberParts) : ℚ :=
  let fraction := p.fraction.getD []
  (Nat.ofDigitChars 10 p.whole 0 + Nat.ofDigitChars 10 fraction 0 / 10 ^ fraction.length) *
    10 ^ (p.power.elim 0 powerValue)

/-- There is no zero in front, but for a single one before the point, no zero at the end of the
fraction, and a sign and no zero in front of the power of ten, which follows a number with one digit
before the point. -/
structure Canonical (p : NumberParts) : Prop where
  digits : p.whole ≠ [] ∧ ∀ c ∈ p.whole, c.isDigit = true
  zero : p.whole.head? = some '0' → p.whole = ['0'] ∧ p.fraction ≠ none
  fraction : ∀ ds ∈ p.fraction, ds ≠ [] ∧ (∀ c ∈ ds, c.isDigit = true) ∧ ds.getLast? ≠ some '0'
  power : ∀ cs ∈ p.power, ∃ sign ds, cs = sign :: ds ∧ (sign = '+' ∨ sign = '-') ∧ ds ≠ [] ∧
    (∀ c ∈ ds, c.isDigit = true) ∧ ds.head? ≠ some '0'
  single : p.power ≠ none → p.whole.length = 1 ∧ p.whole ≠ ['0']

end NumberParts

/-- The rational that a number text stands for. -/
def numberValue : List Char → ℚ
  | '-' :: cs => -(NumberParts.ofText cs).value
  | cs => (NumberParts.ofText cs).value

/-! ## Parts of texts -/

section

variable {c : Char} {cs rest : List Char}

theorem cutAt_of_notMem (h : c ∉ cs) : cutAt c cs = (cs, none) := by
  induction cs with
  | nil => rfl
  | cons x cs ih =>
    rw [List.mem_cons, not_or] at h
    obtain ⟨hx, hcs⟩ := h
    rw [cutAt, if_neg (Ne.symm hx), ih hcs]

theorem cutAt_append (h : c ∉ cs) : cutAt c (cs ++ c :: rest) = (cs, some rest) := by
  induction cs with
  | nil => rw [List.nil_append, cutAt, if_pos rfl]
  | cons x cs ih =>
    rw [List.mem_cons, not_or] at h
    obtain ⟨hx, hcs⟩ := h
    rw [List.cons_append, cutAt, if_neg (Ne.symm hx), ih hcs]

/-- Digits are none of the marks of a number. -/
theorem notMem_of_isDigit (h : ∀ c ∈ cs, c.isDigit = true) (hc : c.isDigit = false) : c ∉ cs := by
  intro hmem
  cases hc.symm.trans (h c hmem)

end

namespace NumberParts

variable {p : NumberParts}

def fractionText (p : NumberParts) : List Char := p.fraction.elim [] ('.' :: ·)

def powerText (p : NumberParts) : List Char := p.power.elim [] ('e' :: ·)

def text (p : NumberParts) : List Char := p.whole ++ (p.fractionText ++ p.powerText)

theorem text_whole (whole : List Char) : text ⟨whole, none, none⟩ = whole :=
  List.append_nil whole

theorem text_fraction (whole fraction : List Char) :
    text ⟨whole, some fraction, none⟩ = whole ++ '.' :: fraction := by
  rw [text, powerText, Option.elim_none, List.append_nil]
  rfl

theorem isDigit_of_mem_head?_powerText {c : Char} (hc : c ∈ p.powerText.head?) :
    c.isDigit = false := by
  obtain ⟨_, _, _ | cs⟩ := p
  · cases hc
  · cases hc
    rfl

theorem isDigit_of_mem_head?_append {c : Char} (hc : c ∈ (p.fractionText ++ p.powerText).head?) :
    c.isDigit = false := by
  obtain ⟨_, _ | ds, power⟩ := p
  · exact isDigit_of_mem_head?_powerText hc
  · cases hc
    rfl

namespace Canonical

variable (h : p.Canonical)

include h

theorem notMem_whole {c : Char} (hc : c.isDigit = false) : c ∉ p.whole :=
  notMem_of_isDigit h.digits.2 hc

theorem e_notMem_fractionText : 'e' ∉ p.fractionText := by
  rw [fractionText]
  cases hf : p.fraction with
  | none => exact List.not_mem_nil
  | some ds =>
    rw [Option.elim_some, List.mem_cons, not_or]
    exact ⟨by decide, notMem_of_isDigit (h.fraction ds hf).2.1 rfl⟩

theorem e_mem_text_iff : 'e' ∈ p.text ↔ p.power ≠ none := by
  rw [text, List.mem_append, List.mem_append, or_iff_right (h.notMem_whole rfl),
    or_iff_right h.e_notMem_fractionText, powerText]
  cases p.power <;> simp

/-- The parts can be found in the text. -/
theorem ofText_text : ofText p.text = p := by
  have hmantissa : cutAt 'e' p.text = (p.whole ++ p.fractionText, p.power) := by
    have hnone : 'e' ∉ p.whole ++ p.fractionText := by
      rw [List.mem_append, not_or]
      exact ⟨h.notMem_whole rfl, h.e_notMem_fractionText⟩
    rw [text, powerText, ← List.append_assoc]
    cases p.power with
    | none =>
      rw [Option.elim_none, List.append_nil]
      exact cutAt_of_notMem hnone
    | some cs => exact cutAt_append hnone
  have hwhole : cutAt '.' (p.whole ++ p.fractionText) = (p.whole, p.fraction) := by
    rw [fractionText]
    cases p.fraction with
    | none =>
      rw [Option.elim_none, List.append_nil]
      exact cutAt_of_notMem (h.notMem_whole rfl)
    | some ds => exact cutAt_append (h.notMem_whole rfl)
  rw [ofText, hmantissa]
  dsimp only
  rw [hwhole]

theorem fractionLength_eq :
    Pattern.fractionLength (p.fractionText ++ p.powerText) = p.fractionText.length := by
  rw [fractionText]
  cases hf : p.fraction with
  | none =>
    rw [powerText]
    cases p.power <;> rfl
  | some ds =>
    obtain ⟨hne, hdigits, -⟩ := h.fraction ds hf
    obtain ⟨d, ds, rfl⟩ := List.exists_cons_of_ne_nil hne
    have hrun := Pattern.run_append hdigits fun _ => isDigit_of_mem_head?_powerText (p := p)
    rw [Option.elim_some, List.cons_append, Pattern.fractionLength, hrun]
    rfl

theorem powerLength_eq : Pattern.powerLength p.powerText = p.powerText.length := by
  rw [powerText]
  cases hp : p.power with
  | none => rfl
  | some cs =>
    obtain ⟨sign, ds, rfl, hsign, hne, hdigits, -⟩ := h.power cs hp
    obtain ⟨d, ds, rfl⟩ := List.exists_cons_of_ne_nil hne
    have hrun : Pattern.run Char.isDigit (d :: ds ++ []) = (d :: ds).length :=
      Pattern.run_append hdigits (by simp)
    have hlength : Pattern.signLength (sign :: d :: ds) = 1 := by
      rcases hsign with rfl | rfl <;> rfl
    rw [List.append_nil] at hrun
    rw [Option.elim_some, Pattern.powerLength, if_pos (.inl rfl), hlength, List.drop_one,
      List.tail_cons, hrun]
    show 1 + ds.length + 2 = ds.length + 1 + 1 + 1
    omega

/-- The text is taken as a number as a whole. -/
theorem length?_text : Pattern.number.length? p.text = some p.text.length := by
  obtain ⟨d, ds, hwhole⟩ := List.exists_cons_of_ne_nil h.digits.1
  have hsize : p.whole.length = ds.length + 1 := by rw [hwhole, List.length_cons]
  have hrun : Pattern.run Char.isDigit p.text = ds.length + 1 :=
    (Pattern.run_append h.digits.2 fun _ => isDigit_of_mem_head?_append).trans hsize
  have hdrop : p.text.drop (ds.length + 1) = p.fractionText ++ p.powerText := by
    rw [← hsize]
    exact List.drop_left
  have hdrop' : p.text.drop (ds.length + 1 + p.fractionText.length) = p.powerText := by
    rw [← List.drop_drop, hdrop, List.drop_left]
  have hdrop'' : p.text.drop (ds.length + 1 + p.fractionText.length + p.powerText.length) = [] := by
    rw [← List.drop_drop, hdrop', List.drop_length]
  rw [Pattern.length?, Pattern.nonzero?_eq_some_iff, Pattern.numberLength_of_run hrun, hdrop,
    h.fractionLength_eq, hdrop', h.powerLength_eq, hdrop'']
  simp only [text, List.length_append, hsize, Pattern.wideLength]
  omega

end Canonical

/-- Without a power of ten. -/
theorem canonical_plain {whole : List Char} {fraction : Option (List Char)}
    (hdigits : whole ≠ [] ∧ ∀ c ∈ whole, c.isDigit = true)
    (hzero : whole.head? = some '0' → whole = ['0'] ∧ fraction ≠ none)
    (hfraction : ∀ ds ∈ fraction, ds ≠ [] ∧ (∀ c ∈ ds, c.isDigit = true) ∧
      ds.getLast? ≠ some '0') : Canonical ⟨whole, fraction, none⟩ where
  digits := hdigits
  zero := hzero
  fraction := hfraction
  power _ hcs := by cases hcs
  single hne := absurd rfl hne

theorem value_eq (p : NumberParts) : p.value =
    Nat.ofDigitChars 10 (p.whole ++ p.fraction.getD []) 0 *
      10 ^ (p.power.elim 0 powerValue - (p.fraction.getD []).length) := by
  have hten : (10 : ℚ) ^ (p.fraction.getD []).length ≠ 0 := by positivity
  rw [value, Digits.ofDigitChars_append, zpow_sub₀ (by norm_num), zpow_natCast]
  push_cast
  field_simp

end NumberParts

/-! ## Layouts -/

namespace Decimal

variable {d : Decimal}

theorem digits_ne_nil (d : Decimal) : d.digits ≠ [] := Nat.toDigits_ne_nil

theorem isDigit_of_mem_digits {c : Char} (h : c ∈ d.digits) : c.isDigit = true :=
  Digits.isDigit_of_mem_toDigits h

theorem ofDigitChars_digits (d : Decimal) : Nat.ofDigitChars 10 d.digits 0 = d.coefficient :=
  Nat.ofDigitChars_ten_toDigits

theorem head?_digits_ne (h : d.coefficient % 10 ≠ 0) : d.digits.head? ≠ some '0' :=
  Digits.head?_toDigits_ne (Nat.pos_of_ne_zero fun h0 => h (by rw [h0]))

theorem getLast?_digits_ne (h : d.coefficient % 10 ≠ 0) : d.digits.getLast? ≠ some '0' :=
  Digits.getLast?_toDigits_ne h

section

variable (h : d.coefficient % 10 ≠ 0)

include h

theorem whole_take {n : Nat} (hn : 0 < n) : d.digits.take n ≠ [] ∧
    (∀ c ∈ d.digits.take n, c.isDigit = true) ∧ (d.digits.take n).head? ≠ some '0' := by
  refine ⟨?_, fun c hc => isDigit_of_mem_digits (List.mem_of_mem_take hc), ?_⟩
  · intro hnil
    rcases List.take_eq_nil_iff.1 hnil with rfl | hnil
    · exact Nat.lt_irrefl 0 hn
    · exact d.digits_ne_nil hnil
  · rw [List.head?_take, if_neg (Nat.ne_of_gt hn)]
    exact head?_digits_ne h

theorem whole_append (k : Nat) : d.digits ++ List.replicate k '0' ≠ [] ∧
    (∀ c ∈ d.digits ++ List.replicate k '0', c.isDigit = true) ∧
      (d.digits ++ List.replicate k '0').head? ≠ some '0' := by
  refine ⟨List.append_ne_nil_of_left_ne_nil d.digits_ne_nil _, ?_, ?_⟩
  · intro c hc
    rcases List.mem_append.1 hc with hc | hc
    · exact isDigit_of_mem_digits hc
    · rw [List.eq_of_mem_replicate hc]
      rfl
  · rw [List.head?_append_of_ne_nil _ d.digits_ne_nil]
    exact head?_digits_ne h

theorem fraction_drop {n : Nat} (hn : n < d.digits.length) : d.digits.drop n ≠ [] ∧
    (∀ c ∈ d.digits.drop n, c.isDigit = true) ∧ (d.digits.drop n).getLast? ≠ some '0' := by
  refine ⟨?_, fun c hc => isDigit_of_mem_digits (List.mem_of_mem_drop hc), ?_⟩
  · exact mt List.drop_eq_nil_iff.1 (Nat.not_le.2 hn)
  · rw [List.getLast?_drop, if_neg (Nat.not_le.2 hn)]
    exact getLast?_digits_ne h

theorem fraction_append (k : Nat) : List.replicate k '0' ++ d.digits ≠ [] ∧
    (∀ c ∈ List.replicate k '0' ++ d.digits, c.isDigit = true) ∧
      (List.replicate k '0' ++ d.digits).getLast? ≠ some '0' := by
  refine ⟨List.append_ne_nil_of_right_ne_nil _ d.digits_ne_nil, ?_, ?_⟩
  · intro c hc
    rcases List.mem_append.1 hc with hc | hc
    · rw [List.eq_of_mem_replicate hc]
      rfl
    · exact isDigit_of_mem_digits hc
  · rw [List.getLast?_append_of_ne_nil _ d.digits_ne_nil]
    exact getLast?_digits_ne h

end

/-- The parts are canonical and stand for the decimal. -/
structure HasParts (d : Decimal) (p : NumberParts) : Prop where
  canonical : p.Canonical
  value : p.value = d.coefficient * 10 ^ d.scale

section

variable (h : d.coefficient % 10 ≠ 0)

include h

/-- Zeros after the digits. -/
theorem hasParts_whole (hpoint : d.digits.length ≤ d.point) :
    d.HasParts ⟨d.digits ++ List.replicate (d.point - d.digits.length).toNat '0', none, none⟩ where
  canonical := by
    obtain ⟨hne, hdigits, hhead⟩ := whole_append h (d.point - d.digits.length).toNat
    exact NumberParts.canonical_plain ⟨hne, hdigits⟩ (fun hzero => absurd hzero hhead) (by simp)
  value := by
    have hscale : ((d.point - d.digits.length).toNat : Int) = d.scale := by
      rw [point] at hpoint ⊢
      omega
    rw [NumberParts.value_eq, Option.getD_none, List.append_nil, Digits.ofDigitChars_append_zeros,
      ofDigitChars_digits, Nat.cast_mul, Nat.cast_pow, ← zpow_natCast, hscale]
    simp

/-- A point among the digits. -/
theorem hasParts_point (hpos : 0 < d.point) (hpoint : d.point < d.digits.length) :
    d.HasParts ⟨d.digits.take d.point.toNat, some (d.digits.drop d.point.toNat), none⟩ where
  canonical := by
    obtain ⟨hne, hdigits, hhead⟩ := whole_take h (n := d.point.toNat) (by omega)
    refine NumberParts.canonical_plain ⟨hne, hdigits⟩ (fun hzero => absurd hzero hhead) ?_
    rintro ds ⟨⟩
    exact fraction_drop h (by omega)
  value := by
    have hscale : (0 : Int) - (d.digits.drop d.point.toNat).length = d.scale := by
      rw [List.length_drop]
      rw [point] at hpos hpoint ⊢
      omega
    rw [NumberParts.value_eq, Option.getD_some, List.take_append_drop, ofDigitChars_digits,
      Option.elim_none, hscale]

/-- A zero before the point, and zeros after it. -/
theorem hasParts_zero (hpoint : d.point ≤ 0) :
    d.HasParts ⟨['0'], some (List.replicate (-d.point).toNat '0' ++ d.digits), none⟩ where
  canonical := by
    refine NumberParts.canonical_plain ⟨List.cons_ne_nil _ _, List.forall_mem_singleton.2 rfl⟩
      (fun _ => ⟨rfl, Option.some_ne_none _⟩) ?_
    rintro ds ⟨⟩
    exact fraction_append h _
  value := by
    have hscale : (0 : Int) - (List.replicate (-d.point).toNat '0' ++ d.digits).length =
        d.scale := by
      rw [List.length_append, List.length_replicate]
      rw [point] at hpoint ⊢
      omega
    rw [NumberParts.value_eq, Option.getD_some, List.singleton_append,
      Digits.ofDigitChars_zero_cons, Digits.ofDigitChars_zeros_append, ofDigitChars_digits,
      Option.elim_none, hscale]

/-- In full, there are three forms. -/
theorem exists_hasParts_plain : ∃ whole fraction,
    Layout.script.plain d = NumberParts.text ⟨whole, fraction, none⟩ ∧
      d.HasParts ⟨whole, fraction, none⟩ := by
  rw [Layout.plain]
  split
  · next hpoint =>
    refine ⟨_, none, ?_, hasParts_whole h hpoint⟩
    rw [NumberParts.text_whole]
    exact List.append_nil _
  · next hpoint =>
    split
    · next hpos =>
      exact ⟨_, _, (NumberParts.text_fraction ..).symm, hasParts_point h hpos (Int.not_le.1 hpoint)⟩
    · next hpos =>
      refine ⟨['0'], some _, ?_, hasParts_zero h (Int.not_lt.1 hpos)⟩
      rw [NumberParts.text_fraction]
      rfl

end

/-- The fraction of a number with one digit before the point. -/
def powerFraction (d : Decimal) : Option (List Char) :=
  if d.digits.drop 1 = [] then none else some (d.digits.drop 1)

def powerPart (d : Decimal) : List Char :=
  (if 0 ≤ d.exponent then '+' else '-') :: Nat.toDigits 10 d.exponent.natAbs

theorem powerValue_powerPart (d : Decimal) : NumberParts.powerValue d.powerPart = d.exponent := by
  rw [powerPart]
  split
  · rw [NumberParts.powerValue, Nat.ofDigitChars_ten_toDigits]
    omega
  · rw [NumberParts.powerValue, Nat.ofDigitChars_ten_toDigits]
    omega

theorem getD_powerFraction (d : Decimal) : d.powerFraction.getD [] = d.digits.drop 1 := by
  rw [powerFraction]
  split
  · next hdrop => rw [hdrop, Option.getD_none]
  · rfl

theorem scientific_eq (d : Decimal) : Layout.script.scientific d =
    NumberParts.text ⟨d.digits.take 1, d.powerFraction, some d.powerPart⟩ := by
  have hsign : (if 0 ≤ d.exponent then Layout.script.powerSign else ['-']) ++
      Nat.toDigits 10 d.exponent.natAbs = d.powerPart := by
    rw [powerPart]
    split <;> rfl
  rw [Layout.scientific, List.append_assoc, List.append_assoc, List.cons_append, hsign,
    NumberParts.text, NumberParts.fractionText, powerFraction]
  cases d.digits.drop 1 <;> rfl

/-- One digit before the point, and a power of ten. -/
theorem hasParts_scientific (h : d.coefficient % 10 ≠ 0) (he : d.exponent ≠ 0) :
    d.HasParts ⟨d.digits.take 1, d.powerFraction, some d.powerPart⟩ where
  canonical := by
    obtain ⟨hne, hdigits, hhead⟩ := whole_take h Nat.one_pos
    refine ⟨⟨hne, hdigits⟩, fun hzero => absurd hzero hhead, ?_, ?_, fun _ => ⟨?_, ?_⟩⟩
    · intro ds hds
      obtain ⟨hdrop, hsome⟩ := Option.ite_none_left_eq_some.1 hds
      cases hsome
      rw [List.drop_eq_nil_iff, Nat.not_le] at hdrop
      exact fraction_drop h hdrop
    · rintro cs ⟨⟩
      refine ⟨_, _, rfl, ?_, Nat.toDigits_ne_nil, fun c => Digits.isDigit_of_mem_toDigits,
        Digits.head?_toDigits_ne (Int.natAbs_pos.2 he)⟩
      split
      · exact .inl rfl
      · exact .inr rfl
    · have := List.length_pos_iff.2 d.digits_ne_nil
      rw [List.length_take]
      omega
    · exact fun hzero => hhead (congrArg List.head? hzero)
  value := by
    have hscale : d.exponent - (d.digits.drop 1).length = d.scale := by
      have := List.length_pos_iff.2 d.digits_ne_nil
      rw [List.length_drop, exponent, point]
      omega
    rw [NumberParts.value_eq, getD_powerFraction, List.take_append_drop, ofDigitChars_digits,
      Option.elim_some, powerValue_powerPart, hscale]

end Decimal

/-- The exponent alone decides whether there is a power of ten. -/
theorem Layout.exists_hasParts_positive {d : Decimal} (h : d.coefficient % 10 ≠ 0) :
    ∃ p : NumberParts, Layout.script.positive d = p.text ∧ d.HasParts p ∧
      (p.power ≠ none ↔ 21 ≤ d.exponent ∨ d.exponent < -6) := by
  have hrange : Layout.script.leastPlain = -6 ∧ Layout.script.greatestPlain = 20 := ⟨rfl, rfl⟩
  rw [positive, hrange.1, hrange.2]
  split
  · next hplain =>
    obtain ⟨whole, fraction, htext, hparts⟩ := Decimal.exists_hasParts_plain h
    exact ⟨_, htext, hparts, iff_of_false (by simp) (by omega)⟩
  · next hplain =>
    refine ⟨_, d.scientific_eq, Decimal.hasParts_scientific h (by omega), iff_of_true (by simp) ?_⟩
    omega

/-! ## Numbers -/

/-- What the text of a decimal without sign has to be. -/
structure Decimal.IsCanonicalText (d : Decimal) (text : List Char) : Prop where
  value : (NumberParts.ofText text).value =
    Nat.ofDigitChars 10 d.digits 0 * 10 ^ (d.exponent - d.digits.length + 1)
  power : 'e' ∈ text ↔ 21 ≤ d.exponent ∨ d.exponent < -6
  matched : Pattern.number.length? text = some text.length
  token : ∀ file : Option String, tokenize (String.ofList text) file =
    .ok [⟨.number, String.ofList text,
        .covering (file.getD Token.defaultFile) 0 (Text.byteLength text)⟩,
      .endOfText ⟨(Text.byteLength text).toUInt32, file.getD Token.defaultFile⟩]
  canonical : (NumberParts.ofText text).Canonical

theorem Decimal.isCanonicalText_positive {d : Decimal} (h : d.coefficient % 10 ≠ 0) :
    d.IsCanonicalText (Layout.script.positive d) := by
  obtain ⟨p, htext, hparts, hpower⟩ := Layout.exists_hasParts_positive h
  have hscale : d.exponent - d.digits.length + 1 = d.scale := by
    rw [exponent, point]
    omega
  have hlength := hparts.canonical.length?_text
  rw [htext]
  refine ⟨?_, ?_, hlength, ?_, ?_⟩
  · rw [hparts.canonical.ofText_text, hparts.value, hscale, d.ofDigitChars_digits]
  · rw [hparts.canonical.e_mem_text_iff, hpower]
  · intro file
    have hnumeral := first?_number_append hlength delimited_nil
    rw [List.append_nil] at hnumeral
    rw [tokenize, String.toList_ofList, Token.scan_eq_singleton hnumeral rfl, Nat.zero_add]
  · rw [hparts.canonical.ofText_text]
    exact hparts.canonical

theorem numberValue_signed {negative : Bool} {text : List Char}
    (h : Pattern.number.length? text = some text.length) :
    numberValue (Layout.signed negative text) =
      (if negative then -1 else 1) * (NumberParts.ofText text).value := by
  obtain ⟨d, ds, rfl, hd, -⟩ := exists_digit_of_length? h
  cases negative with
  | true => exact (neg_one_mul _).symm
  | false =>
    have hunsigned : numberValue (d :: ds) = (NumberParts.ofText (d :: ds)).value := by
      unfold numberValue
      split
      · next heq =>
        cases heq
        cases hd
      · rfl
    exact hunsigned.trans (one_mul _).symm

/-- A finite number other than zero is written with its shortest digits, of which neither the first
nor the last is zero. The text stands for exactly the decimal of these digits. -/
theorem scriptNumber_canonical (x : Float) (hfinite : x.isFinite = true)
    (hzero : (x == 0) = false) :
    ∃ b : Binary, Reading.ofFloat x = .finite (decide (x < 0)) b ∧
      b.shortest.digits.head? ≠ some '0' ∧ b.shortest.digits.getLast? ≠ some '0' ∧
      numberValue (scriptNumber x).toList = (if x < 0 then -1 else 1) *
        (Nat.ofDigitChars 10 b.shortest.digits 0 *
          10 ^ (b.shortest.exponent - b.shortest.digits.length + 1)) ∧
      ∃ text, (scriptNumber x).toList = Layout.signed (decide (x < 0)) text ∧
        b.shortest.IsCanonicalText text := by
  obtain ⟨b, hread, hb⟩ := exists_ofFloat_eq_finite hfinite hzero
  have hlast := hb.shortest_mod_ten
  have htext := Decimal.isCanonicalText_positive hlast
  have hscript : (scriptNumber x).toList =
      Layout.signed (decide (x < 0)) (Layout.script.positive b.shortest) := by
    rw [scriptNumber, Layout.ofFloat, String.toList_ofList, hread, Layout.text]
  refine ⟨b, hread, Decimal.head?_digits_ne hlast, Decimal.getLast?_digits_ne hlast, ?_, _, hscript,
    htext⟩
  rw [hscript, numberValue_signed htext.matched, htext.value]
  simp only [decide_eq_true_eq]

/-- The text of a negative number with a power of ten. -/
theorem scriptNumber_canonical_negative :
    ∃ (b : Binary) (text : List Char), Reading.ofFloat (-1.5e-7) = .finite true b ∧
      (scriptNumber (-1.5e-7)).toList = '-' :: text ∧ b.shortest.IsCanonicalText text := by
  obtain ⟨b, hread, -, -, -, text, hscript, htext⟩ :=
    scriptNumber_canonical (-1.5e-7) (by decide +kernel) (by decide +kernel)
  have hnegative : decide ((-1.5e-7 : Float) < 0) = true := by decide +kernel
  rw [hnegative] at hread hscript
  exact ⟨b, text, hread, hscript, htext⟩

end Scriptlet
