import Scriptlet.Proofs.Script.Numbers
import Scriptlet.Proofs.Script.Signs

/-!
Literals can be told from their texts in a script. The last character tells the kind, the escapes of
a string can be read back one by one, and the digits of a number give its decimal, which rounds to
no other number. Only the sign of zero is lost.
-/

namespace Scriptlet

/-! ## Signs -/

namespace Layout

/-- The sign and what it stands before can be told apart. -/
theorem signed_inj {negative negative' : Bool} {text text' : List Char}
    (htext : text.head? ≠ some '-') (htext' : text'.head? ≠ some '-')
    (h : signed negative text = signed negative' text') :
    negative = negative' ∧ text = text' := by
  cases negative <;> cases negative'
  · exact ⟨rfl, h⟩
  · exact absurd (congrArg List.head? h) htext
  · exact absurd (congrArg List.head? h).symm htext'
  · exact ⟨rfl, List.tail_eq_of_cons_eq h⟩

theorem head?_ne_minus {text : List Char} (h : ∃ c cs, text = c :: cs ∧ c.isDigit = true) :
    text.head? ≠ some '-' := by
  obtain ⟨c, cs, rfl, hc⟩ := h
  rintro ⟨⟩
  exact absurd hc (by decide)

end Layout

/-! ## Numbers -/

theorem Layout.positive_ne_cons {d : Decimal} {c : Char} {cs : List Char}
    (hc : c.isDigit = false) : Layout.script.positive d ≠ c :: cs := by
  obtain ⟨c', cs', htext, hc'⟩ := exists_positive d
  rw [htext]
  rintro ⟨⟩
  cases hc.symm.trans hc'

namespace Binary.Normal

variable {b b' : Binary}

theorem exists_hasParts (hb : b.Normal) : ∃ p : NumberParts,
    Layout.script.positive b.shortest = p.text ∧ b.shortest.HasParts p := by
  obtain ⟨p, htext, hp, -⟩ := Layout.exists_hasParts_positive hb.toWellFormed.shortest_mod_ten
  exact ⟨p, htext, hp⟩

/-- A float can be told from its text. -/
theorem eq_of_positive (hb : b.Normal) (hb' : b'.Normal)
    (h : Layout.script.positive b.shortest = Layout.script.positive b'.shortest) : b = b' := by
  obtain ⟨p, htext, hp⟩ := hb.exists_hasParts
  obtain ⟨p', htext', hp'⟩ := hb'.exists_hasParts
  have hparts : p = p' := by
    rw [← hp.canonical.ofText_text, ← htext, h, htext', hp'.canonical.ofText_text]
  -- equal parts have equal values, and no number rounds to two floats
  refine hb.eq_of_value_shortest hb' ?_
  rw [Decimal.value, Decimal.value, ← hp.value, ← hp'.value, hparts]

/-- Zero is written with a fraction wherever it comes first. -/
theorem positive_ne_zero (hb : b.Normal) : Layout.script.positive b.shortest ≠ ['0'] := by
  obtain ⟨p, htext, hp⟩ := hb.exists_hasParts
  intro hzero
  have hparts : p = ⟨['0'], none, none⟩ := by
    rw [← hp.canonical.ofText_text, ← htext, hzero]
    rfl
  obtain ⟨-, hfraction⟩ := hp.canonical.zero (hparts ▸ rfl)
  exact hfraction (hparts ▸ rfl)

end Binary.Normal

namespace Reading

/-- The sign that is written. -/
def sign : Reading → Bool
  | infinite negative | finite negative _ => negative
  | nan | zero _ => false

/-- The text after the sign. -/
def unsigned : Reading → List Char
  | nan => Layout.script.nan
  | infinite _ => Layout.script.infinity
  | zero _ => Layout.script.zero
  | finite _ b => Layout.script.positive b.shortest

variable {r r' : Reading}

theorem text_eq_signed (r : Reading) : Layout.script.text r = Layout.signed r.sign r.unsigned := by
  cases r with
  | zero negative => cases negative <;> rfl
  | _ => rfl

theorem head?_unsigned_ne (r : Reading) : r.unsigned.head? ≠ some '-' := by
  cases r with
  | finite negative b => exact Layout.head?_ne_minus (Layout.exists_positive b.shortest)
  | _ =>
    rw [unsigned]
    decide

theorem unsigned_eq_nan_iff : r.unsigned = Layout.script.nan ↔ r = nan := by
  cases r with
  | nan => exact iff_of_true rfl rfl
  | infinite _ | zero _ => exact iff_of_false (by rw [unsigned]; decide) (by simp)
  | finite negative b => exact iff_of_false (Layout.positive_ne_cons (c := 'N') rfl) (by simp)

theorem unsigned_eq_infinity_iff :
    r.unsigned = Layout.script.infinity ↔ ∃ negative, r = infinite negative := by
  cases r with
  | infinite negative => exact iff_of_true rfl ⟨negative, rfl⟩
  | nan | zero _ => exact iff_of_false (by rw [unsigned]; decide) (by simp)
  | finite negative b => exact iff_of_false (Layout.positive_ne_cons (c := 'I') rfl) (by simp)

theorem unsigned_eq_zero_iff (hr : r.Normal) :
    r.unsigned = Layout.script.zero ↔ ∃ negative, r = zero negative := by
  cases r with
  | zero negative => exact iff_of_true rfl ⟨negative, rfl⟩
  | nan | infinite _ => exact iff_of_false (by rw [unsigned]; decide) (by simp)
  | finite negative b => exact iff_of_false (Binary.Normal.positive_ne_zero hr) (by simp)

/-- Readings with the same text are the same, or zero with some sign. -/
theorem eq_or_zero_of_text (hr : r.Normal) (hr' : r'.Normal)
    (h : Layout.script.text r = Layout.script.text r') :
    r = r' ∨ (∃ negative, r = zero negative) ∧ ∃ negative, r' = zero negative := by
  rw [text_eq_signed, text_eq_signed] at h
  obtain ⟨hsign, htext⟩ := Layout.signed_inj r.head?_unsigned_ne r'.head?_unsigned_ne h
  cases r with
  | nan => exact .inl (unsigned_eq_nan_iff.1 htext.symm).symm
  | infinite negative =>
    obtain ⟨_, rfl⟩ := unsigned_eq_infinity_iff.1 htext.symm
    exact .inl (congrArg infinite hsign)
  | zero negative => exact .inr ⟨⟨_, rfl⟩, (unsigned_eq_zero_iff hr').1 htext.symm⟩
  | finite negative b =>
    cases r' with
    | nan => cases unsigned_eq_nan_iff.1 htext
    | infinite _ => cases unsigned_eq_infinity_iff.1 htext with | intro _ h => cases h
    | zero _ => cases (unsigned_eq_zero_iff hr).1 htext with | intro _ h => cases h
    | finite negative' b' =>
      obtain rfl := Binary.Normal.eq_of_positive hr hr' htext
      exact .inl (congrArg (finite · b) hsign)

end Reading

theorem Literal.number_beq (x y : Float) :
    (Literal.number x == Literal.number y) = (x.toBits == y.toBits || (x.isNaN && y.isNaN)) :=
  rfl

/-- Numbers with the same text are the same, or both are zero. -/
theorem scriptNumber_eq_iff {x y : Float} : scriptNumber x = scriptNumber y ↔
    (Literal.number x == Literal.number y) = true ∨ (x == 0) = true ∧ (y == 0) = true := by
  rw [scriptNumber, scriptNumber, Layout.ofFloat, Layout.ofFloat, String.ofList_inj,
    Literal.number_beq, Bool.or_eq_true, Bool.and_eq_true, beq_iff_eq,
    ← Reading.ofFloat_eq_nan_iff, ← Reading.ofFloat_eq_nan_iff,
    ← Reading.exists_ofFloat_eq_zero_iff, ← Reading.exists_ofFloat_eq_zero_iff]
  constructor
  · intro h
    have hread := Reading.eq_or_zero_of_text (Reading.normal_ofFloat x)
      (Reading.normal_ofFloat y) h
    refine hread.imp_left fun hread => ?_
    by_cases hnan : Reading.ofFloat x = .nan
    · exact .inr ⟨hnan, hread ▸ hnan⟩
    · exact .inl (Reading.toBits_eq_of_ofFloat hread hnan)
  · rintro ((hbits | ⟨hx, hy⟩) | ⟨⟨s, hx⟩, ⟨s', hy⟩⟩)
    · rw [Reading.ofFloat, Reading.ofFloat, hbits]
    · rw [hx, hy]
    · rw [hx, hy, Reading.text_eq_signed, Reading.text_eq_signed]
      rfl

/-! ## Integers -/

theorem toList_toString_int (n : Int) :
    (toString n).toList = Layout.signed (decide (n < 0)) (Nat.toDigits 10 n.natAbs) := by
  cases n with
  | ofNat m =>
    rw [decide_eq_false (by simp)]
    exact Nat.toList_repr
  | negSucc m =>
    rw [decide_eq_true (Int.negSucc_lt_zero m)]
    exact Literal.toList_negSucc m

theorem toString_int_injective {n n' : Int} (h : toString n = toString n') : n = n' := by
  have htext := congrArg String.toList h
  rw [toList_toString_int, toList_toString_int] at htext
  have hhead (m : Nat) : (Nat.toDigits 10 m).head? ≠ some '-' := by
    obtain ⟨c, cs, hdigits, hcs⟩ := exists_toDigits m
    exact Layout.head?_ne_minus ⟨c, cs, hdigits, hcs c (List.mem_cons_self ..)⟩
  obtain ⟨hsign, hdigits⟩ := Layout.signed_inj (hhead _) (hhead _) htext
  have habs : n.natAbs = n'.natAbs := by
    rw [← Nat.ofDigitChars_ten_toDigits (n := n.natAbs), hdigits, Nat.ofDigitChars_ten_toDigits]
  rw [decide_eq_decide] at hsign
  omega

/-! ## Strings -/

/-- The value of a hexadecimal digit. -/
def hexValue (c : Char) : Nat := (List.range 16).findIdx (Nat.digitChar · == c)

theorem hexValue_digitChar {n : Nat} (h : n < 16) : hexValue n.digitChar = n := by
  revert n
  decide

/-- What is meant by a character after a backslash. -/
def readEscape : Char → Char
  | 'b' => '\x08'
  | 't' => '\t'
  | 'n' => '\n'
  | 'f' => '\x0c'
  | 'r' => '\r'
  | c => c

/-- The first character of what is meant by a text between quotes, and the text after it. -/
def readChar? : List Char → Option (Char × List Char)
  | '\\' :: 'u' :: _ :: _ :: high :: low :: rest =>
    some (Char.ofNat (16 * hexValue high + hexValue low), rest)
  | '\\' :: c :: rest => some (readEscape c, rest)
  | c :: rest => some (c, rest)
  | [] => none

theorem readChar?_scriptChar (c : Char) (rest : List Char) :
    readChar? (scriptChar c ++ rest) = some (c, rest) := by
  unfold scriptChar
  split
  case h_8 hquote hbackslash _ _ _ _ _ =>
    split
    · next hcontrol =>
      show some (Char.ofNat (16 * hexValue _ + hexValue _), rest) = _
      rw [hexValue_digitChar (by omega), hexValue_digitChar (by omega), Nat.div_add_mod,
        Char.ofNat_toNat]
    · rw [List.singleton_append, readChar?]
      · exact fun _ _ _ _ _ h => absurd h hbackslash
      · exact fun _ _ h => absurd h hbackslash
  all_goals rfl

theorem flatMap_scriptChar_injective {cs ds : List Char}
    (h : cs.flatMap scriptChar = ds.flatMap scriptChar) : cs = ds := by
  induction cs generalizing ds with
  | nil =>
    cases ds with
    | nil => rfl
    | cons d ds =>
      have hread := congrArg readChar? h
      rw [List.flatMap_cons, readChar?_scriptChar] at hread
      cases hread
  | cons c cs ih =>
    have hread := congrArg readChar? h
    rw [List.flatMap_cons, readChar?_scriptChar] at hread
    cases ds with
    | nil => cases hread
    | cons d ds =>
      rw [List.flatMap_cons, readChar?_scriptChar] at hread
      obtain ⟨rfl, hrest⟩ := Prod.mk.inj (Option.some.inj hread)
      rw [ih hrest]

theorem scriptString_injective {s t : String} (h : scriptString s = scriptString t) : s = t := by
  rw [scriptString, scriptString, String.ofList_inj] at h
  have hinside := List.append_cancel_right (List.tail_eq_of_cons_eq h)
  exact String.toList_inj.1 (flatMap_scriptChar_injective hinside)

/-! ## Kinds -/

/-- The characters that the texts of other literals than numbers end in. -/
def isMark (c : Char) : Bool := ['n', '"', 'e', 'l', 'd'].contains c

theorem isMark_of_isDigit {c : Char} (h : c.isDigit = true) : isMark c = false := by
  have hmarks : (['n', '"', 'e', 'l', 'd'].all fun c => !c.isDigit) = true := rfl
  rw [isMark, List.contains_eq_mem, decide_eq_false_iff_not]
  intro hmem
  have hc := List.all_eq_true.1 hmarks c hmem
  rw [h] at hc
  cases hc

/-- Whatever its parts, the text of a number ends in digits. -/
theorem NumberParts.Canonical.exists_digits_text {p : NumberParts} (h : p.Canonical) :
    ∃ front ds, p.text = front ++ ds ∧ ds ≠ [] ∧ ∀ c ∈ ds, c.isDigit = true := by
  rw [text, ← List.append_assoc, powerText]
  cases hp : p.power with
  | some cs =>
    obtain ⟨sign, ds, rfl, -, hne, hdigits, -⟩ := h.power cs hp
    exact ⟨p.whole ++ p.fractionText ++ ['e', sign], ds, by simp, hne, hdigits⟩
  | none =>
    rw [Option.elim_none, List.append_nil, fractionText]
    cases hf : p.fraction with
    | none => exact ⟨[], p.whole, by simp, h.digits⟩
    | some ds =>
      obtain ⟨hne, hdigits, -⟩ := h.fraction ds hf
      exact ⟨p.whole ++ ['.'], ds, by simp, hne, hdigits⟩

theorem Layout.exists_signed_append (negative : Bool) (front ds : List Char) :
    ∃ front', signed negative (front ++ ds) = front' ++ ds := by
  cases negative with
  | false => exact ⟨front, rfl⟩
  | true => exact ⟨'-' :: front, rfl⟩

theorem filter_getLast?_scriptNumber (x : Float) :
    (scriptNumber x).toList.getLast?.filter isMark = none := by
  have hnormal := Reading.normal_ofFloat x
  rw [scriptNumber, Layout.ofFloat, String.toList_ofList]
  cases hread : Reading.ofFloat x with
  | nan => decide
  | infinite negative => cases negative <;> decide
  | zero negative => cases negative <;> decide
  | finite negative b =>
    rw [hread] at hnormal
    obtain ⟨p, htext, hp⟩ := Binary.Normal.exists_hasParts hnormal
    obtain ⟨front, ds, hds, hne, hdigits⟩ := hp.canonical.exists_digits_text
    obtain ⟨front', hsigned⟩ := Layout.exists_signed_append negative front ds
    rw [Layout.text, htext, hds, hsigned, List.getLast?_append_of_ne_nil _ hne,
      Option.filter_eq_none_iff]
    intro c hc
    rw [isMark_of_isDigit (hdigits c (List.mem_of_getLast? hc))]
    exact Bool.false_ne_true

namespace Literal

/-- The mark that the text ends in. -/
def mark? : Literal → Option Char
  | number _ => none
  | bigInt _ => some 'n'
  | str _ => some '"'
  | bool _ => some 'e'
  | null => some 'l'
  | undefined => some 'd'

theorem filter_getLast?_script (a : Literal) : a.script.toList.getLast?.filter isMark = a.mark? := by
  cases a with
  | number x => exact filter_getLast?_scriptNumber x
  | bigInt n =>
    rw [script, String.toList_append, List.getLast?_append_of_ne_nil _ (by decide)]
    rfl
  | str s =>
    rw [script, scriptString, String.toList_ofList, List.getLast?_concat]
    rfl
  | bool value => cases value <;> decide
  | null => decide
  | undefined => decide

/-- Literals with the same text are of the same kind. -/
theorem mark?_eq_of_script {a b : Literal} (h : a.script = b.script) : a.mark? = b.mark? := by
  rw [← filter_getLast?_script, h, filter_getLast?_script]

/-- The texts of all but numbers can be told apart. -/
theorem eq_or_number_of_script {a b : Literal} (h : a.script = b.script) :
    a = b ∨ ∃ x y, a = number x ∧ b = number y := by
  have hmark := mark?_eq_of_script h
  cases a with
  | number x =>
    cases b with
    | number y => exact .inr ⟨x, y, rfl, rfl⟩
    | _ => cases hmark
  | bigInt n =>
    cases b with
    | bigInt n' =>
      rw [script, script, String.append_left_inj] at h
      exact .inl (congrArg bigInt (Int128.ext (toString_int_injective h)))
    | _ => cases hmark
  | str s =>
    cases b with
    | str t => exact .inl (congrArg str (scriptString_injective h))
    | _ => cases hmark
  | bool value =>
    cases b with
    | bool value' =>
      have htext : ∀ v v' : Bool, (bool v).script = (bool v').script → v = v' := by decide
      exact .inl (congrArg bool (htext value value' h))
    | _ => cases hmark
  | null =>
    cases b with
    | null => exact .inl rfl
    | _ => cases hmark
  | undefined =>
    cases b with
    | undefined => exact .inl rfl
    | _ => cases hmark

theorem eq_or_number_of_beq {a b : Literal} (h : (a == b) = true) :
    a = b ∨ ∃ x y, a = number x ∧ b = number y := by
  change a.beq b = true at h
  unfold beq at h
  split at h
  · exact .inr ⟨_, _, rfl, rfl⟩
  · exact .inl (congrArg bigInt (eq_of_beq h))
  · exact .inl (congrArg str (eq_of_beq h))
  · exact .inl (congrArg bool (eq_of_beq h))
  · exact .inl rfl
  · exact .inl rfl
  · cases h

/-- Two literals have the same text if they are the same, or if both are zero as numbers. -/
theorem script_eq_iff (a b : Literal) : a.script = b.script ↔
    (a == b) = true ∨
      ∃ x y, a = number x ∧ b = number y ∧ (x == 0) = true ∧ (y == 0) = true := by
  constructor
  · intro h
    obtain rfl | ⟨x, y, rfl, rfl⟩ := eq_or_number_of_script h
    · exact .inl a.beq_self
    · exact (scriptNumber_eq_iff.1 h).imp_right fun hzero => ⟨x, y, rfl, rfl, hzero⟩
  · rintro (h | ⟨x, y, rfl, rfl, hzero⟩)
    · obtain rfl | ⟨x, y, rfl, rfl⟩ := eq_or_number_of_beq h
      · rfl
      · exact scriptNumber_eq_iff.2 (.inl h)
    · exact scriptNumber_eq_iff.2 (.inr hzero)

end Literal

end Scriptlet
