import Mathlib.Data.List.TakeWhile
import Scriptlet.Proofs.Token.Longest
import Scriptlet.Proofs.Typing.Elaboration

/-!
Numbers as they are read. A text that the pattern of numbers describes has digits, then perhaps a
point with digits, a power of ten and the mark `n`; what the checker reads from it is what the rules
say that it stands for.
-/

namespace Scriptlet

open Numeral Pattern

variable {c : Char} {cs ds whole fraction places exponent : List Char} {power : Int}

/-! ## Integers -/

/-- There is no sign before a digit. -/
theorem splitSign_cons_of_isDigit (hc : c.isDigit = true) :
    splitSign (c :: cs) = (false, c :: cs) := by
  unfold splitSign
  split
  · next h =>
    cases h
    cases hc
  · next h =>
    cases h
    cases hc
  · rfl

theorem nat?_of_ne_nil (h : cs ≠ []) :
    nat? cs = if cs.all Char.isDigit = true then some (Nat.ofDigitChars 10 cs 0) else none :=
  if_congr (and_iff_right h) rfl rfl

/-- Digits are read to their value. -/
theorem nat?_of_isDigits (h : IsDigits ds) : nat? ds = some (Nat.ofDigitChars 10 ds 0) := by
  rw [nat?_of_ne_nil h.1, if_pos (List.all_eq_true.2 h.2)]

theorem int128?_cons_of_isDigit (hc : c.isDigit = true) :
    int128? (c :: cs) = (nat? (c :: cs)).bind fun n => Int128.ofInt? n := by
  simp only [int128?, int?, splitSign_cons_of_isDigit hc]
  cases nat? (c :: cs) <;> rfl

/-- What begins with a digit is an integer if all of it is digits and the value fits. -/
theorem int128?_eq_some_iff {value : Int128} (hc : c.isDigit = true) :
    int128? (c :: cs) = some value ↔
      (∀ d ∈ c :: cs, d.isDigit = true) ∧ value.val = Nat.ofDigitChars 10 (c :: cs) 0 := by
  rw [int128?_cons_of_isDigit hc, nat?_of_ne_nil (List.cons_ne_nil _ _), ← List.all_eq_true]
  by_cases h : (c :: cs).all Char.isDigit = true
  · rw [if_pos h, Option.bind_some, Int128.ofInt?_eq_some_iff, and_iff_right h]
  · rw [if_neg h, Option.bind_none]
    exact iff_of_false (Option.some_ne_none _).symm fun hdigits => h hdigits.1

/-! ## Parts of a number -/

theorem IsDigits.exists_cons (h : IsDigits ds) : ∃ d ds', ds = d :: ds' ∧ d.isDigit = true := by
  obtain ⟨hne, hall⟩ := h
  obtain ⟨d, ds', rfl⟩ := List.exists_cons_of_ne_nil hne
  exact ⟨d, ds', rfl, hall d List.mem_cons_self⟩

theorem exists_places_of_mem (h : cs ∈ 1 + fractions) : ∃ places, DenotesPlaces cs places := by
  rcases h with rfl | h
  · exact ⟨[], .none⟩
  · obtain ⟨point, places, hpoint, hplaces, rfl⟩ := mem_single_mul.1 h
    cases beq_iff_eq.1 hpoint
    exact ⟨places, .some (mem_several.1 hplaces)⟩

theorem exists_power_of_mem (h : cs ∈ 1 + powers) : ∃ power, DenotesPower cs power := by
  rcases h with rfl | h
  · exact ⟨0, .none⟩
  · obtain ⟨mark, -, hmark, ⟨sign, hsign, ds, hds, rfl⟩, rfl⟩ := mem_single_mul.1 h
    have hmark : mark = 'e' ∨ mark = 'E' := by simpa using hmark
    have hds := mem_several.1 hds
    rcases hsign with rfl | ⟨sign, hsign, rfl⟩
    · exact ⟨_, .unsigned hmark hds⟩
    · have hsign : sign = '+' ∨ sign = '-' := by simpa using hsign
      rcases hsign with rfl | rfl
      · exact ⟨_, .plus hmark hds⟩
      · exact ⟨_, .minus hmark hds⟩

/-- The parts of a number, in order. -/
theorem exists_parts_of_mem_number (h : cs ∈ number.language) :
    ∃ whole fraction places exponent power mark, IsDigits whole ∧ DenotesPlaces fraction places ∧
      DenotesPower exponent power ∧ (mark = [] ∨ mark = ['n']) ∧
      cs = whole ++ fraction ++ exponent ++ mark := by
  obtain ⟨-, ⟨-, ⟨whole, hwhole, fraction, hfraction, rfl⟩, exponent, hexponent, rfl⟩, mark, hmark,
    rfl⟩ := h
  have hmark : mark = [] ∨ mark = ['n'] := by
    rcases hmark with rfl | ⟨c, hc, rfl⟩
    · exact .inl rfl
    · exact .inr (by rw [beq_iff_eq.1 hc])
  obtain ⟨places, hplaces⟩ := exists_places_of_mem hfraction
  obtain ⟨power, hpower⟩ := exists_power_of_mem hexponent
  exact ⟨whole, fraction, places, exponent, power, mark, mem_several.1 hwhole, hplaces, hpower,
    hmark, rfl⟩

/-- What stands before the power of ten. -/
theorem isDigit_or_point_of_mem (hwhole : IsDigits whole) (hfraction : DenotesPlaces fraction places)
    (h : c ∈ whole ++ fraction) : c.isDigit = true ∨ c = '.' := by
  rcases List.mem_append.1 h with h | h
  · exact .inl (hwhole.2 c h)
  · cases hfraction with
    | none => cases h
    | some hplaces =>
      rcases List.mem_cons.1 h with rfl | h
      · exact .inr rfl
      · exact .inl (hplaces.2 c h)

/-- The mark of wide integers is no part of a float. -/
theorem mark_notMem (hwhole : IsDigits whole) (hfraction : DenotesPlaces fraction places)
    (hexponent : DenotesPower exponent power) : 'n' ∉ whole ++ fraction ++ exponent := by
  have hdigits : ∀ {ds : List Char}, IsDigits ds → 'n' ∉ ds := fun h hmem => by cases h.2 _ hmem
  rw [List.mem_append, not_or]
  constructor
  · intro h
    rcases isDigit_or_point_of_mem hwhole hfraction h with h | h <;> cases h
  · cases hexponent with
    | none => exact List.not_mem_nil
    | unsigned hmark hds => rcases hmark with rfl | rfl <;> simp [hdigits hds]
    | plus hmark hds | minus hmark hds => rcases hmark with rfl | rfl <;> simp [hdigits hds]

/-! ## Floats -/

/-- The point is dropped, and the digits after it are counted. -/
theorem fraction?_eq (hwhole : IsDigits whole) (hfraction : DenotesPlaces fraction places) :
    fraction? (whole ++ fraction) = some (whole ++ places, places.length) := by
  cases hfraction with
  | none =>
    have hall : whole.takeWhile Char.isDigit = whole := List.takeWhile_eq_self_iff.2 hwhole.2
    have hnone : whole.dropWhile Char.isDigit = [] := List.dropWhile_eq_nil_iff.2 hwhole.2
    simp [fraction?, hall, hnone, hwhole.1]
  | some hplaces =>
    have hstop : ('.' :: places).takeWhile Char.isDigit = [] := rfl
    have hrest : ('.' :: places).dropWhile Char.isDigit = '.' :: places := rfl
    have hall : places.all Char.isDigit = true := List.all_eq_true.2 hplaces.2
    simp only [fraction?, List.takeWhile_append_of_pos hwhole.2,
      List.dropWhile_append_of_pos hwhole.2, hstop, hrest, List.append_nil]
    rw [if_pos ⟨trivial, hall, .inl hwhole.1⟩]

theorem int?_of_isDigits (h : IsDigits ds) : int? ds = some (Nat.ofDigitChars 10 ds 0 : Int) := by
  obtain ⟨d, ds, rfl, hd⟩ := h.exists_cons
  simp [int?, splitSign_cons_of_isDigit hd, nat?_of_isDigits h]

/-- A power of ten is empty, or a mark and an integer. -/
theorem power_cases (h : DenotesPower exponent power) : exponent = [] ∧ power = 0 ∨
    ∃ mark rest, (mark = 'e' ∨ mark = 'E') ∧ exponent = mark :: rest ∧ int? rest = some power := by
  cases h with
  | none => exact .inl ⟨rfl, rfl⟩
  | unsigned hmark hds => exact .inr ⟨_, _, hmark, rfl, int?_of_isDigits hds⟩
  | plus hmark hds =>
    refine .inr ⟨_, _, hmark, rfl, ?_⟩
    simp [int?, splitSign, nat?_of_isDigits hds]
  | minus hmark hds =>
    refine .inr ⟨_, _, hmark, rfl, ?_⟩
    simp [int?, splitSign, nat?_of_isDigits hds]

/-- A number is read to its digits, scaled by the power of ten less the digits after the point. -/
theorem magnitude?_eq (hwhole : IsDigits whole) (hfraction : DenotesPlaces fraction places)
    (hexponent : DenotesPower exponent power) : magnitude? (whole ++ fraction ++ exponent) =
      some (scaled (whole ++ places) (power - places.length)) := by
  obtain ⟨before, hq⟩ : ∃ before : Char → Bool, before = fun c => ¬(c = 'e' ∨ c = 'E') := ⟨_, rfl⟩
  have hbefore : ∀ c ∈ whole ++ fraction, before c = true := by
    intro c hc
    rw [hq]
    refine decide_eq_true ?_
    rintro (rfl | rfl) <;>
      rcases isDigit_or_point_of_mem hwhole hfraction hc with h | h <;> cases h
  have hread := fraction?_eq hwhole hfraction
  rw [magnitude?]
  simp only [← hq]
  rcases power_cases hexponent with ⟨rfl, rfl⟩ | ⟨mark, rest, hmark, rfl, hrest⟩
  · rw [List.append_nil, List.takeWhile_eq_self_iff.2 hbefore, List.dropWhile_eq_nil_iff.2 hbefore,
      hread, Option.map_some, Int.zero_sub]
  · have hstop : ¬before mark = true := by
      rw [hq]
      exact fun h => of_decide_eq_true h hmark
    rw [List.takeWhile_append_of_pos hbefore, List.takeWhile_cons_of_neg hstop, List.append_nil,
      List.dropWhile_append_of_pos hbefore, List.dropWhile_cons_of_neg hstop]
    simp only [hread, hrest, Option.bind_eq_bind, Option.bind_some, Option.pure_def]

/-- What begins with a digit is none of the words for infinity and not-a-number. -/
theorem float?_cons_of_isDigit (hc : c.isDigit = true) :
    float? (c :: cs) = magnitude? (c :: cs) := by
  have hlower : c.toLower = c := by
    have hle : c.val ≤ '9'.val := of_decide_eq_true (Bool.and_eq_true_iff.1 hc).2
    refine dif_neg ?_
    rintro ⟨hA, -⟩
    exact absurd (UInt32.le_trans hA hle) (by decide)
  have hword : ∀ d ds, d.isDigit = false →
      String.ofList ((c :: cs).map Char.toLower) ≠ String.ofList (d :: ds) := by
    intro d ds hd heq
    have hhead := (List.cons.inj (String.ofList_injective heq)).1
    rw [hlower] at hhead
    rw [← hhead, hc] at hd
    cases hd
  have hinf := hword 'i' ['n', 'f'] rfl
  have hinfinity := hword 'i' ['n', 'f', 'i', 'n', 'i', 't', 'y'] rfl
  have hnan := hword 'n' ['a', 'n'] rfl
  simp only [float?, splitSign_cons_of_isDigit hc]
  rw [if_neg (not_or.2 ⟨hinf, hinfinity⟩), if_neg hnan]
  exact Option.map_id'

theorem float?_eq (hwhole : IsDigits whole) (hfraction : DenotesPlaces fraction places)
    (hexponent : DenotesPower exponent power) : float? (whole ++ fraction ++ exponent) =
      some (scaled (whole ++ places) (power - places.length)) := by
  rw [← magnitude?_eq hwhole hfraction hexponent]
  obtain ⟨d, ds, rfl, hd⟩ := hwhole.exists_cons
  exact float?_cons_of_isDigit hd

/-! ## Numbers -/

/-- With the mark, what stands before it is read as an integer. -/
theorem ofNumeral?_of_mark {text : String} (h : text.toList = ds ++ ['n']) :
    Literal.ofNumeral? text = (int128? ds).map Literal.bigInt := by
  rw [Literal.ofNumeral?, h, List.getLast?_concat, if_pos rfl, List.dropLast_concat]

/-- Without the mark, a number is read as a float. -/
theorem ofNumeral?_of_parts {text : String} (hwhole : IsDigits whole)
    (hfraction : DenotesPlaces fraction places) (hexponent : DenotesPower exponent power)
    (h : text.toList = whole ++ fraction ++ exponent) : Literal.ofNumeral? text =
      some (.number (scaled (whole ++ places) (power - places.length))) := by
  have hlast : text.toList.getLast? ≠ some 'n' := fun hlast =>
    mark_notMem hwhole hfraction hexponent (h ▸ List.mem_of_getLast? hlast)
  rw [Literal.ofNumeral?, if_neg hlast, h, float?_eq hwhole hfraction hexponent]
  rfl

/-- On the texts that the pattern of numbers describes, the checker reads what they stand for. -/
theorem ofNumeral?_eq_some_iff {text : String} {value : Literal} (h : number.Describes text) :
    Literal.ofNumeral? text = some value ↔ DenotesNumber text.toList value := by
  obtain ⟨whole, fraction, places, exponent, power, mark, hwhole, hfraction, hexponent, hmark,
    htext⟩ := exists_parts_of_mem_number h
  constructor
  · intro hread
    rcases hmark with rfl | rfl
    · rw [List.append_nil] at htext
      rw [ofNumeral?_of_parts hwhole hfraction hexponent htext] at hread
      cases hread
      rw [htext]
      exact .float hwhole hfraction hexponent rfl
    · obtain ⟨d, ds, rfl, hd⟩ := hwhole.exists_cons
      rw [ofNumeral?_of_mark htext] at hread
      obtain ⟨value, hvalue, rfl⟩ := Option.map_eq_some_iff.1 hread
      obtain ⟨hdigits, hval⟩ := (int128?_eq_some_iff hd).1 hvalue
      rw [htext]
      exact .wide ⟨List.cons_ne_nil _ _, hdigits⟩ hval
  · intro hdenotes
    generalize hcs : text.toList = cs at hdenotes
    cases hdenotes with
    | wide hds hval =>
      obtain ⟨d, ds, rfl, hd⟩ := hds.exists_cons
      rw [ofNumeral?_of_mark hcs, (int128?_eq_some_iff hd).2 ⟨hds.2, hval⟩]
      rfl
    | float hwhole hfraction hexponent hscale =>
      subst hscale
      exact ofNumeral?_of_parts hwhole hfraction hexponent hcs

end Scriptlet
