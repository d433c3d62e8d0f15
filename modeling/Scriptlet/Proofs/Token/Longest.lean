import Mathlib.Computability.Language
import Scriptlet.Proofs.Token.Extent

/-!
Longest matches. What a pattern may match is a language, said without any order of choices, and of
the beginnings of a text that belong to it the pattern takes the longest. Of two patterns that match
at the same place the one that is tried first takes more, so that the first match is the longest of
all.
-/

namespace Scriptlet

namespace Pattern

open Computability Language

/-! ## Languages -/

/-- One character that satisfies the condition. -/
def single (q : Char → Bool) : Language Char := {w | ∃ c, q c = true ∧ w = [c]}

/-- One or more characters that satisfy the condition. -/
def several (q : Char → Bool) : Language Char := single q * (single q)∗

/-- A point with digits after it. -/
def fractions : Language Char := single (· == '.') * several Char.isDigit

/-- A power of ten. -/
def powers : Language Char :=
  single (fun c => c == 'e' || c == 'E') *
    ((1 + single fun c => c == '+' || c == '-') * several Char.isDigit)

/-- What stands for one character in a string. -/
def quotable : Language Char :=
  single (fun c => c != '"' && c != '\\' && c != '\n') + single (· == '\\') * single (· ≠ '\n')

/-- The texts that the pattern describes. -/
def language : Pattern → Language Char
  | word => single isWordStart * (single isWordPart)∗
  | number => several Char.isDigit * (1 + fractions) * (1 + powers) * (1 + single (· == 'n'))
  | blanks => several Text.isBlank
  | string => single (· == '"') * (quotable∗ * single (· == '"'))
  | comment => {['/', '/']} * (single (· ≠ '\n'))∗
  | sign text _ => {text}

variable {l l' : Language Char} {p q : Char → Bool} {c : Char} {cs w : List Char} {m n : Nat}
  {o : Option Nat}

theorem mem_single : w ∈ single q ↔ ∃ c, q c = true ∧ w = [c] := Iff.rfl

theorem mem_kstar_single : w ∈ (single q)∗ ↔ ∀ c ∈ w, q c = true := by
  constructor
  · rintro ⟨pieces, rfl, hpieces⟩ c hc
    obtain ⟨piece, hpiece, hmem⟩ := List.mem_flatten.1 hc
    obtain ⟨d, hd, rfl⟩ := mem_single.1 (hpieces piece hpiece)
    rwa [List.mem_singleton.1 hmem]
  · intro h
    refine ⟨w.map fun c => [c], ?_, fun piece hpiece => ?_⟩
    · rw [← List.flatMap_def, List.flatMap_singleton']
    · obtain ⟨c, hc, rfl⟩ := List.mem_map.1 hpiece
      exact ⟨c, h c hc, rfl⟩

theorem mem_single_mul : w ∈ single q * l ↔ ∃ c v, q c = true ∧ v ∈ l ∧ w = c :: v := by
  rw [mem_mul]
  constructor
  · rintro ⟨-, ⟨c, hc, rfl⟩, v, hv, rfl⟩
    exact ⟨c, v, hc, hv, rfl⟩
  · rintro ⟨c, v, hc, hv, rfl⟩
    exact ⟨[c], ⟨c, hc, rfl⟩, v, hv, rfl⟩

theorem mem_several : w ∈ several q ↔ w ≠ [] ∧ ∀ c ∈ w, q c = true := by
  rw [several, mem_single_mul]
  constructor
  · rintro ⟨c, v, hc, hv, rfl⟩
    exact ⟨List.cons_ne_nil c v, List.forall_mem_cons.2 ⟨hc, mem_kstar_single.1 hv⟩⟩
  · rintro ⟨hne, hall⟩
    obtain ⟨c, v, rfl⟩ := List.exists_cons_of_ne_nil hne
    obtain ⟨hc, hv⟩ := List.forall_mem_cons.1 hall
    exact ⟨c, v, hc, mem_kstar_single.2 hv, rfl⟩

/-- All characters of the texts satisfy the condition. -/
def MadeOf (l : Language Char) (q : Char → Bool) : Prop := ∀ w ∈ l, ∀ c ∈ w, q c = true

/-- The first characters of the texts satisfy the condition. -/
def Begins (l : Language Char) (q : Char → Bool) : Prop := ∀ w ∈ l, ∀ c ∈ w.head?, q c = true

theorem madeOf_single (h : ∀ c, p c = true → q c = true) : MadeOf (single p) q := by
  rintro - ⟨c, hc, rfl⟩
  exact List.forall_mem_singleton.2 (h c hc)

theorem madeOf_several (h : ∀ c, p c = true → q c = true) : MadeOf (several p) q :=
  fun _ hw c hc => h c ((mem_several.1 hw).2 c hc)

theorem MadeOf.mono (h : MadeOf l p) (hpq : ∀ c, p c = true → q c = true) : MadeOf l q :=
  fun w hw c hc => hpq c (h w hw c hc)

/-- What is made of a class of characters in two parts is made of it. -/
theorem MadeOf.mul (h : MadeOf l q) (h' : MadeOf l' q) : MadeOf (l * l') q := by
  intro w hw
  obtain ⟨u, hu, v, hv, rfl⟩ := mem_mul.1 hw
  exact List.forall_mem_append.2 ⟨h u hu, h' v hv⟩

theorem MadeOf.optional (h : MadeOf l q) : MadeOf (1 + l) q := by
  rintro w (hw | hw)
  · cases hw
    exact List.forall_mem_nil _
  · exact h w hw

theorem begins_single (q : Char → Bool) : Begins (single q) q := by
  rintro - ⟨c, hc, rfl⟩ d hd
  cases hd
  exact hc

theorem begins_single_mul (q : Char → Bool) (l : Language Char) : Begins (single q * l) q := by
  rintro w hw d hd
  obtain ⟨c, v, hc, -, rfl⟩ := mem_single_mul.1 hw
  cases hd
  exact hc

theorem Begins.optional (h : Begins l q) : Begins (1 + l) q := by
  rintro w (hw | hw) c hc
  · cases hw
    cases hc
  · exact h w hw c hc

/-! ## Longest beginnings -/

/-- The length of the longest beginning of the text that belongs to the language. -/
def Longest (l : Language Char) (cs : List Char) : Option Nat → Prop
  | some n => n ≤ cs.length ∧ cs.take n ∈ l ∧ ∀ w ∈ l, w <+: cs → w.length ≤ n
  | none => ∀ w ∈ l, ¬ w <+: cs

/-- The longest beginning of characters of a class is the run of them. -/
theorem longest_kstar_single (q : Char → Bool) (cs : List Char) :
    Longest (single q)∗ cs (some (run q cs)) := by
  refine ⟨run_le_length q cs, ?_, ?_⟩
  · rw [take_run]
    exact mem_kstar_single.2 (List.all_eq_true.1 List.all_takeWhile)
  · rintro w hw ⟨rest, rfl⟩
    rw [run, List.takeWhile_append_of_pos (mem_kstar_single.1 hw), List.length_append]
    exact Nat.le_add_right ..

theorem longest_several (q : Char → Bool) (cs : List Char) :
    Longest (several q) cs (nonzero? (run q cs)) := by
  obtain ⟨hle, hmem, hlongest⟩ := longest_kstar_single q cs
  have hlongest : ∀ w ∈ several q, w <+: cs → w.length ≤ run q cs := fun w hw =>
    hlongest w (mem_kstar_single.2 (mem_several.1 hw).2)
  cases hrun : run q cs with
  | zero =>
    intro w hw hstart
    have hlength := hlongest w hw hstart
    rw [hrun] at hlength
    exact (mem_several.1 hw).1 (List.length_eq_zero_iff.1 (Nat.le_zero.1 hlength))
  | succ n =>
    rw [hrun] at hle hmem hlongest
    refine ⟨hle, mem_several.2 ⟨?_, mem_kstar_single.1 hmem⟩, hlongest⟩
    rw [ne_eq, List.take_eq_nil_iff]
    rintro (hzero | rfl)
    · cases hzero
    · cases hle

theorem longest_single_cons (hc : q c = true) : Longest (single q) (c :: cs) (some 1) := by
  refine ⟨Nat.succ_le_succ (Nat.zero_le _), ⟨c, hc, rfl⟩, ?_⟩
  rintro w ⟨d, -, rfl⟩ -
  exact Nat.le_refl 1

theorem longest_single_none (h : ∀ c ∈ cs.head?, q c = false) : Longest (single q) cs none := by
  rintro w ⟨c, hc, rfl⟩ ⟨rest, rfl⟩
  cases hc.symm.trans (h c rfl)

theorem longest_singleton (text cs : List Char) :
    Longest {text} cs (if text.isPrefixOf cs then some text.length else none) := by
  split
  · next h =>
    have hstart := List.isPrefixOf_iff_prefix.1 h
    refine ⟨hstart.length_le, (List.prefix_iff_eq_take.1 hstart).symm, ?_⟩
    rintro w rfl -
    exact Nat.le_refl _
  · next h =>
    rintro w rfl hstart
    exact h (List.isPrefixOf_iff_prefix.2 hstart)

/-- A text and then a text of another language, where no shorter text of the first one is followed
by anything of the second. -/
theorem Longest.mul (h : Longest l cs (some m)) (h' : Longest l' (cs.drop m) o)
    (hstop : ∀ u ∈ l, ∀ v ∈ l', u ++ v <+: cs → u.length < m → v = []) :
    Longest (l * l') cs (o.map (m + ·)) := by
  obtain ⟨hle, hmem, hlongest⟩ := h
  -- the first part is the longest one, or the second is empty
  have hparts : ∀ u ∈ l, ∀ v ∈ l', u ++ v <+: cs →
      u.length ≤ m ∧ v <+: cs.drop m := by
    intro u hu v hv huv
    have hum := hlongest u hu ((List.prefix_append u v).trans huv)
    refine ⟨hum, ?_⟩
    rcases Nat.lt_or_eq_of_le hum with hlt | rfl
    · rw [hstop u hu v hv huv hlt]
      exact List.nil_prefix
    · obtain ⟨rest, rfl⟩ := huv
      rw [List.append_assoc, List.drop_left]
      exact List.prefix_append v rest
  cases o with
  | none =>
    intro w hw hstart
    obtain ⟨u, hu, v, hv, rfl⟩ := mem_mul.1 hw
    exact h' v hv (hparts u hu v hv hstart).2
  | some n =>
    obtain ⟨hle', hmem', hlongest'⟩ := h'
    rw [List.length_drop] at hle'
    refine ⟨Nat.add_le_of_le_sub' hle hle', ?_, ?_⟩
    · rw [List.take_add]
      exact append_mem_mul hmem hmem'
    · intro w hw hstart
      obtain ⟨u, hu, v, hv, rfl⟩ := mem_mul.1 hw
      obtain ⟨hum, hv'⟩ := hparts u hu v hv hstart
      rw [List.length_append]
      exact Nat.add_le_add hum (hlongest' v hv hv')

theorem Longest.mul_of_none (h : Longest l cs none) (l' : Language Char) :
    Longest (l * l') cs none := by
  intro w hw hstart
  obtain ⟨u, hu, v, -, rfl⟩ := mem_mul.1 hw
  exact h u hu ((List.prefix_append u v).trans hstart)

/-- It suffices that no character of the first part begins the second. -/
theorem Longest.mul_disjoint (h : Longest l cs (some m)) (h' : Longest l' (cs.drop m) o)
    (hl : MadeOf l p) (hl' : Begins l' q) (hdisjoint : ∀ c, q c = true → p c = false) :
    Longest (l * l') cs (o.map (m + ·)) := by
  refine h.mul h' fun u _ v hv huv hlt => ?_
  cases v with
  | nil => rfl
  | cons c v =>
    -- the character stands within the longest first part
    have hmem : c ∈ cs.take m := by
      refine List.mem_take_iff_getElem.2 ⟨u.length, ?_, ?_⟩
      · have := huv.length_le
        simp only [List.length_append, List.length_cons] at this
        omega
      · obtain ⟨rest, rfl⟩ := huv
        simp
    have hp := hl _ h.2.1 c hmem
    cases hp.symm.trans (hdisjoint c (hl' (c :: v) hv c rfl))

/-- One character and then a text of another language. -/
theorem longest_single_mul (hc : q c = true) (h : Longest l cs o) :
    Longest (single q * l) (c :: cs) (o.map (· + 1)) := by
  simp only [Nat.add_comm _ 1]
  refine (longest_single_cons hc).mul h ?_
  rintro - ⟨d, -, rfl⟩ v - - hlt
  exact absurd hlt (Nat.lt_irrefl 1)

theorem longest_single_mul_none (h : ∀ c ∈ cs.head?, q c = false) :
    Longest (single q * l) cs none :=
  (longest_single_none h).mul_of_none l

theorem Longest.optional (h : Longest l cs o) : Longest (1 + l) cs (some (o.getD 0)) := by
  cases o with
  | none =>
    refine ⟨Nat.zero_le _, .inl rfl, ?_⟩
    rintro w (rfl | hw) hstart
    · exact Nat.le_refl 0
    · exact absurd hstart (h w hw)
  | some n =>
    obtain ⟨hle, hmem, hlongest⟩ := h
    refine ⟨hle, .inr hmem, ?_⟩
    rintro w (rfl | hw) hstart
    · exact Nat.zero_le _
    · exact hlongest w hw hstart

/-! ## Numbers -/

theorem madeOf_fractions : MadeOf fractions fun c => c.isDigit || c == '.' :=
  (madeOf_single (by simp)).mul (madeOf_several (by simp +contextual))

theorem madeOf_powers :
    MadeOf powers fun c => c.isDigit || c == 'e' || c == 'E' || c == '+' || c == '-' :=
  (madeOf_single (by simp +contextual)).mul
    ((madeOf_single (by simp +contextual)).optional.mul (madeOf_several (by simp +contextual)))

/-- Of a part that may be missing the length is zero if it is. -/
theorem Longest.optional_nonzero (h : Longest l cs (nonzero? n)) : Longest (1 + l) cs (some n) := by
  have hoptional := h.optional
  cases n <;> exact hoptional

/-- A fraction is taken whole, or not at all where no digit follows the point. -/
theorem longest_fraction (cs : List Char) :
    Longest (1 + fractions) cs (some (fractionLength cs)) := by
  apply Longest.optional_nonzero
  cases cs with
  | nil => exact longest_single_mul_none (by simp)
  | cons c cs =>
    by_cases hc : c = '.'
    · have h := longest_single_mul (q := (· == '.')) (beq_iff_eq.2 hc)
        (longest_several Char.isDigit cs)
      rw [hc] at h ⊢
      rw [fractionLength]
      cases hrun : run Char.isDigit cs <;> rw [hrun] at h <;> exact h
    · have hzero : fractionLength (c :: cs) = 0 := by rw [fractionLength]; simp [hc]
      rw [hzero]
      exact longest_single_mul_none (by simpa using hc)

theorem longest_powerSign (cs : List Char) :
    Longest (1 + single fun c => c == '+' || c == '-') cs (some (signLength cs)) := by
  unfold signLength
  split
  · exact (longest_single_cons rfl).optional
  · exact (longest_single_cons rfl).optional
  · next hplus hminus =>
    refine (longest_single_none fun c hc => ?_).optional
    obtain ⟨rest, rfl⟩ := List.head?_eq_some_iff.1 hc
    simp only [Bool.or_eq_false_iff, beq_eq_false_iff_ne]
    exact ⟨fun h => hplus rest (h ▸ rfl), fun h => hminus rest (h ▸ rfl)⟩

/-- A power is taken whole, or not at all where no digit follows the mark or its sign. -/
theorem longest_power (cs : List Char) : Longest (1 + powers) cs (some (powerLength cs)) := by
  apply Longest.optional_nonzero
  cases cs with
  | nil => exact longest_single_mul_none (by simp)
  | cons c cs =>
    rw [powerLength]
    by_cases hc : c = 'e' ∨ c = 'E'
    · have hdigits := (longest_powerSign cs).mul_disjoint
        (longest_several Char.isDigit (cs.drop (signLength cs)))
        (madeOf_single fun _ => id).optional (begins_single_mul _ _) (by
          intro d hd
          simp only [Bool.or_eq_false_iff, beq_eq_false_iff_ne]
          constructor <;> rintro rfl <;> cases hd)
      have h := longest_single_mul (q := fun c => c == 'e' || c == 'E') (by simpa using hc) hdigits
      rw [if_pos hc]
      cases hrun : run Char.isDigit (cs.drop (signLength cs)) <;> rw [hrun] at h <;> exact h
    · rw [if_neg hc]
      exact longest_single_mul_none (by simpa using hc)

theorem longest_mark (cs : List Char) :
    Longest (1 + single (· == 'n')) cs (some (wideLength cs)) := by
  unfold wideLength
  split
  · exact (longest_single_cons rfl).optional
  · next hmark =>
    refine (longest_single_none fun c hc => ?_).optional
    obtain ⟨rest, rfl⟩ := List.head?_eq_some_iff.1 hc
    exact beq_eq_false_iff_ne.2 fun h => hmark rest (h ▸ rfl)

/-- The number that is taken is the longest beginning that the pattern describes. -/
theorem longest_number (cs : List Char) :
    Longest number.language cs (nonzero? (numberLength cs)) := by
  have hwhole := longest_several Char.isDigit cs
  cases hm : run Char.isDigit cs with
  | zero =>
    rw [hm] at hwhole
    rw [numberLength, hm]
    exact ((hwhole.mul_of_none _).mul_of_none _).mul_of_none _
  | succ m =>
    rw [hm] at hwhole
    have hfraction := hwhole.mul_disjoint (longest_fraction _) (madeOf_several fun _ => id)
      (begins_single_mul _ _).optional (by simp)
    have hplain : MadeOf (several Char.isDigit * (1 + fractions)) fun c => c.isDigit || c == '.' :=
      (madeOf_several (by simp +contextual)).mul madeOf_fractions.optional
    have hpower := hfraction.mul_disjoint (longest_power _) hplain (begins_single_mul _ _).optional
      (by simp)
    have hnumber := hpower.mul_disjoint (p := (· != 'n')) (longest_mark _)
      ((hplain.mono ?_).mul (madeOf_powers.mono ?_).optional) (begins_single _).optional (by simp)
    · rw [numberLength_of_run hm, nonzero?_eq_some_iff.2 ⟨rfl, by omega⟩]
      exact hnumber
    all_goals
      rintro c hc
      refine bne_iff_ne.2 ?_
      rintro rfl
      cases hc

/-! ## Strings -/

theorem append_mem_kstar {u v : List Char} (hu : u ∈ l) (hv : v ∈ l∗) : u ++ v ∈ l∗ :=
  (mul_kstar_le_kstar : l * l∗ ≤ l∗) (append_mem_mul hu hv)

theorem stringLength?_append_quote (h : w ∈ quotable∗) (rest : List Char) :
    stringLength? (w ++ '"' :: rest) = some (w.length + 1) := by
  obtain ⟨pieces, rfl, hpieces⟩ := h
  induction pieces with
  | nil => rfl
  | cons piece pieces ih =>
    obtain ⟨hpiece, hrest⟩ := List.forall_mem_cons.1 hpieces
    rw [List.flatten_cons, List.append_assoc, List.length_append]
    rcases hpiece with ⟨c, hc, rfl⟩ | hpiece
    · simp only [Bool.and_eq_true, bne_iff_ne] at hc
      obtain ⟨⟨hquote, hbackslash⟩, hnewline⟩ := hc
      rw [List.singleton_append, stringLength?_cons hquote hbackslash, if_neg hnewline, ih hrest]
      exact congrArg some (by simp only [List.length_singleton]; omega)
    · obtain ⟨c, v, hc, ⟨d, hd, rfl⟩, rfl⟩ := mem_single_mul.1 hpiece
      cases beq_iff_eq.1 hc
      rw [List.cons_append, List.singleton_append, stringLength?, if_neg (of_decide_eq_true hd),
        ih hrest]
      exact congrArg some (by simp only [List.length_cons, List.length_nil]; omega)

/-- A string that is taken ends at the first quote that no backslash escapes. -/
theorem exists_quotable_of_stringLength? (h : stringLength? cs = some n) :
    ∃ raw rest, raw ∈ quotable∗ ∧ cs = raw ++ '"' :: rest ∧ n = raw.length + 1 := by
  fun_induction stringLength? cs generalizing n with
  | case1 => cases h
  | case2 cs =>
    cases h
    exact ⟨[], cs, nil_mem_kstar _, rfl, rfl⟩
  | case3 => cases h
  | case4 => cases h
  | case5 c cs hc ih =>
    obtain ⟨m, hm, rfl⟩ := Option.map_eq_some_iff.1 h
    obtain ⟨raw, rest, hraw, rfl, rfl⟩ := ih hm
    have hescape : ['\\', c] ∈ quotable :=
      .inr (mem_single_mul.2 ⟨_, _, rfl, ⟨c, decide_eq_true hc, rfl⟩, rfl⟩)
    exact ⟨'\\' :: c :: raw, rest, append_mem_kstar hescape hraw, rfl, rfl⟩
  | case6 => cases h
  | case7 c cs hquote hnil hcons hc ih =>
    have hplain : [c] ∈ quotable := by
      refine .inl ⟨c, ?_, rfl⟩
      simp only [Bool.and_eq_true, bne_iff_ne]
      refine ⟨⟨hquote, ?_⟩, hc⟩
      rintro rfl
      cases cs with
      | nil => exact hnil rfl rfl
      | cons d cs => exact hcons d cs rfl rfl
    obtain ⟨m, hm, rfl⟩ := Option.map_eq_some_iff.1 h
    obtain ⟨raw, rest, hraw, rfl, rfl⟩ := ih hm
    exact ⟨c :: raw, rest, append_mem_kstar hplain hraw, rfl, rfl⟩

/-- The rest of a string, up to its closing quote, is the longest beginning of that form.  -/
theorem longest_quoted (cs : List Char) :
    Longest (quotable∗ * single (· == '"')) cs (stringLength? cs) := by
  have hlength : ∀ w ∈ quotable∗ * single (· == '"'), w <+: cs →
      stringLength? cs = some w.length := by
    rintro w hw ⟨rest, rfl⟩
    obtain ⟨raw, hraw, -, ⟨c, hc, rfl⟩, rfl⟩ := mem_mul.1 hw
    cases beq_iff_eq.1 hc
    rw [List.append_assoc, List.length_append]
    exact stringLength?_append_quote hraw rest
  cases hn : stringLength? cs with
  | none =>
    intro w hw hstart
    cases hn.symm.trans (hlength w hw hstart)
  | some n =>
    obtain ⟨raw, rest, hraw, rfl, rfl⟩ := exists_quotable_of_stringLength? hn
    refine ⟨by simp, ?_, ?_⟩
    · rw [List.append_cons, List.take_left' (by simp)]
      exact append_mem_mul hraw ⟨'"', rfl, rfl⟩
    · intro w hw hstart
      exact Nat.le_of_eq (Option.some.inj ((hlength w hw hstart).symm.trans hn))

/-! ## Patterns -/

theorem longest_word (cs : List Char) : Longest word.language cs (word.length? cs) := by
  cases cs with
  | nil => exact longest_single_mul_none (by simp)
  | cons c cs =>
    rw [length?]
    split
    · next hc => exact longest_single_mul hc (longest_kstar_single isWordPart cs)
    · next hc => exact longest_single_mul_none (by simpa using hc)

theorem longest_string (cs : List Char) : Longest string.language cs (string.length? cs) := by
  by_cases hquote : cs.head? = some '"'
  · obtain ⟨cs, rfl⟩ := List.head?_eq_some_iff.1 hquote
    exact longest_single_mul rfl (longest_quoted cs)
  · have hnone : string.length? cs = none := by
      refine Option.eq_none_iff_forall_ne_some.2 fun n hn => hquote ?_
      cases length?_eq_some_iff.1 hn
      rfl
    rw [hnone]
    refine longest_single_mul_none fun c hc => beq_eq_false_iff_ne.2 ?_
    rintro rfl
    exact hquote hc

theorem longest_comment (cs : List Char) : Longest comment.language cs (comment.length? cs) := by
  have hslashes := longest_singleton ['/', '/'] cs
  split at hslashes
  · next h =>
    obtain ⟨cs, rfl⟩ := List.isPrefixOf_iff_prefix.1 h
    have hline := hslashes.mul (longest_kstar_single (· ≠ '\n') cs) (by
      rintro u rfl v - - hlt
      exact absurd hlt (Nat.lt_irrefl 2))
    change Longest _ _ (some (run (· ≠ '\n') cs + 2))
    rwa [Nat.add_comm]
  · next h =>
    have hnone : comment.length? cs = none := by
      refine Option.eq_none_iff_forall_ne_some.2 fun n hn => h ?_
      cases length?_eq_some_iff.1 hn
      rfl
    rw [hnone]
    exact hslashes.mul_of_none _

theorem longest_sign {text : List Char} {kind : TokenKind} (h : text ≠ []) (cs : List Char) :
    Longest (sign text kind).language cs ((sign text kind).length? cs) := by
  have hlength : nonzero? text.length = some text.length :=
    nonzero?_eq_some_iff.2 ⟨rfl, List.length_pos_iff.2 h⟩
  rw [length?_sign, hlength]
  exact longest_singleton text cs

/-- A pattern takes the longest beginning of the text that it describes. -/
theorem longest_length? {p : Pattern} (hp : p ∈ table) (cs : List Char) :
    Longest p.language cs (p.length? cs) := by
  cases p with
  | word => exact longest_word cs
  | number => exact longest_number cs
  | blanks => exact longest_several Text.isBlank cs
  | string => exact longest_string cs
  | comment => exact longest_comment cs
  | sign text kind =>
    refine longest_sign ?_ cs
    rintro rfl
    simp [table] at hp

/-! ## The order of the table -/

/-- Where both patterns match, the first one takes more. -/
def Outranks (p q : Pattern) : Prop := ∀ ⦃cs m n⦄, p.Takes cs m → q.Takes cs n → n < m

/-- Whether the character can begin a match of the pattern. -/
def begins : Pattern → Char → Bool
  | word, c => isWordStart c
  | number, c => c.isDigit
  | blanks, c => Text.isBlank c
  | string, c => c == '"'
  | comment, c => c == '/'
  | sign text _, c => text.head? == some c

theorem Takes.begins {p : Pattern} (h : p.Takes cs n) : ∃ c ∈ cs.head?, p.begins c = true := by
  have hrun : ∀ {q : Char → Bool}, run q cs ≠ 0 → ∃ c ∈ cs.head?, q c = true := by
    intro q hne
    cases cs with
    | nil => exact absurd rfl hne
    | cons c cs =>
      rw [run_cons] at hne
      split at hne
      · next hc => exact ⟨c, rfl, hc⟩
      · exact absurd rfl hne
  cases h with
  | word hc => exact ⟨_, rfl, hc⟩
  | number h =>
    refine hrun fun (hzero : run Char.isDigit cs = 0) => ?_
    rw [numberLength, hzero] at h
    cases h
  | blanks h => exact hrun (h ▸ Nat.succ_ne_zero _)
  | string => exact ⟨_, rfl, rfl⟩
  | comment => exact ⟨_, rfl, rfl⟩
  | sign h =>
    obtain ⟨c, text, rfl⟩ := List.exists_cons_of_length_eq_add_one h
    exact ⟨c, rfl, beq_self_eq_true _⟩

/-- Patterns that begin with different characters do not compete. -/
theorem outranks_of_begins {p q : Pattern} (h : ∀ c, p.begins c = true → q.begins c = true → False) :
    Outranks p q := by
  intro cs m n hp hq
  obtain ⟨c, hc, hpc⟩ := hp.begins
  obtain ⟨d, hd, hqd⟩ := hq.begins
  cases hc.symm.trans hd
  exact (h c hpc hqd).elim

/-- The codes of the characters that can begin a match. -/
def Codes : Pattern → Nat → Prop
  | word, k => 65 ≤ k ∧ k ≤ 90 ∨ 97 ≤ k ∧ k ≤ 122 ∨ k = 95
  | number, k => 48 ≤ k ∧ k ≤ 57
  | blanks, k => k ≤ 32 ∨ 128 ≤ k
  | string, k => k = 34
  | comment, k => k = 47
  | sign _ _, _ => True

theorem codes_of_begins {p : Pattern} (h : p.begins c = true) : p.Codes c.toNat := by
  cases p with
  | word => exact toNat_of_isWordStart h
  | number => exact Char.isDigit_iff_toNat.1 h
  | blanks => exact toNat_of_isBlank h
  | string | comment =>
    cases beq_iff_eq.1 h
    rfl
  | sign => trivial

/-- The patterns that are no signs. -/
def classes : List Pattern := [word, number, blanks, string, comment]

def signs : List Pattern := table.drop 5

theorem pairwise_classes : classes.Pairwise Outranks := by
  simp only [classes, List.pairwise_cons, List.forall_mem_cons, List.not_mem_nil, false_implies,
    implies_true, List.Pairwise.nil, and_true]
  refine ⟨⟨?_, ?_, ?_, ?_⟩, ⟨?_, ?_, ?_⟩, ⟨?_, ?_⟩, ?_⟩
  all_goals
    refine outranks_of_begins fun c hp hq => ?_
    have hp := codes_of_begins hp
    have hq := codes_of_begins hq
    simp only [Codes] at hp hq
    omega

/-- The least number of characters that the pattern takes. -/
def least : Pattern → Nat
  | comment => 2
  | sign text _ => text.length
  | _ => 1

theorem Takes.least_le {p : Pattern} (h : p.Takes cs n) : p.least ≤ n := by
  cases h with
  | comment => exact Nat.le_add_left ..
  | sign h => exact Nat.le_of_eq h
  | _ => exact Nat.le_add_left ..

/-- A test for patterns before signs: no match begins like the sign, or every match is longer. -/
def precedes (p : Pattern) : Pattern → Bool
  | sign text _ => text.head?.all (fun c => !p.begins c) || text.length < p.least
  | _ => false

theorem outranks_of_precedes {p q : Pattern} (h : p.precedes q = true) : Outranks p q := by
  cases q with
  | sign text kind =>
    rcases Bool.or_eq_true_iff.1 h with hhead | hlength
    · refine outranks_of_begins fun c hp hq => ?_
      have hnot := (Option.all_eq_true _ _).1 hhead c (beq_iff_eq.1 hq)
      rw [hp] at hnot
      cases hnot
    · intro cs m n hp hq
      have hm := hp.least_le
      have hlength := of_decide_eq_true hlength
      cases hq
      omega
  | _ => cases h

/-- Of two patterns of the table, the earlier takes more wherever both take something. -/
theorem pairwise_table : table.Pairwise Outranks := by
  have hsigns : signs.Pairwise fun p q => p.precedes q = true := by decide
  have hclasses : (classes.all fun p => signs.all p.precedes) = true := rfl
  refine List.pairwise_append.2 ⟨pairwise_classes, hsigns.imp outranks_of_precedes, ?_⟩
  intro p hp q hq
  exact outranks_of_precedes (List.all_eq_true.1 (List.all_eq_true.1 hclasses p hp) q hq)

/-- What a pattern describes is no longer than what it takes. -/
theorem exists_length?_of_mem_language {p : Pattern} (hp : p ∈ table) (hw : w ∈ p.language)
    (hstart : w <+: cs) : ∃ n, p.length? cs = some n ∧ w.length ≤ n := by
  have hlongest := longest_length? hp cs
  cases hn : p.length? cs with
  | none =>
    rw [hn] at hlongest
    exact absurd hstart (hlongest w hw)
  | some n =>
    rw [hn] at hlongest
    exact ⟨n, rfl, hlongest.2.2 w hw hstart⟩

theorem exists_split_of_first? {p : Pattern} (h : first? cs = some (p, n)) :
    ∃ before after, table = before ++ p :: after ∧ p.length? cs = some n ∧
      ∀ q ∈ before, q.length? cs = none := by
  obtain ⟨before, q, after, htable, hq, hbefore⟩ := List.findSome?_eq_some_iff.1 h
  obtain ⟨m, hm, he⟩ := Option.map_eq_some_iff.1 hq
  cases he
  exact ⟨before, after, htable, hm, fun q hq => Option.map_eq_none_iff.1 (hbefore q hq)⟩

/-- The pattern that is chosen takes more than any other one. -/
theorem lt_of_first? {p q : Pattern} (h : first? cs = some (p, n)) (hq : q ∈ table) (hne : q ≠ p)
    (hm : q.length? cs = some m) : m < n := by
  obtain ⟨before, after, htable, hn, hbefore⟩ := exists_split_of_first? h
  have hpairwise := pairwise_table
  rw [htable, List.pairwise_append, List.pairwise_cons] at hpairwise
  rw [htable, List.mem_append, List.mem_cons] at hq
  rcases hq with hq | hq | hq
  · cases hm.symm.trans (hbefore q hq)
  · exact absurd hq hne
  · exact hpairwise.2.1.1 q hq (length?_eq_some_iff.1 hn) (length?_eq_some_iff.1 hm)

/-- The first pattern that matches is the one that matches most: it takes the longest beginning of
the text that it describes, and what any other pattern describes is shorter. So nothing that a
pattern describes is split. -/
theorem firstMatch_longest (cs : List Char) (h : ∃ q ∈ table, ∃ w ∈ q.language, w <+: cs) :
    ∃ before p after lexeme, table = before ++ p :: after ∧
      (∀ q ∈ before, ∀ w ∈ q.language, ¬ w <+: cs) ∧ lexeme ∈ p.language ∧ lexeme <+: cs ∧
      first? cs = some (p, lexeme.length) ∧
      ∀ q ∈ table, ∀ w ∈ q.language, w <+: cs →
        w <+: lexeme ∧ (q ≠ p → w.length < lexeme.length) := by
  obtain ⟨q, hq, w, hw, hstart⟩ := h
  obtain ⟨k, hk, -⟩ := exists_length?_of_mem_language hq hw hstart
  obtain ⟨⟨p, n⟩, hfirst⟩ : ∃ found, first? cs = some found := by
    refine Option.ne_none_iff_exists'.1 fun hnone => ?_
    cases hk.symm.trans (first?_eq_none_iff.1 hnone q hq)
  obtain ⟨before, after, htable, hn, hbefore⟩ := exists_split_of_first? hfirst
  have hlongest := longest_length? (first?_eq_some hfirst).1 cs
  rw [hn] at hlongest
  obtain ⟨hle, htake, hmost⟩ := hlongest
  have hlength : (cs.take n).length = n := List.length_take_of_le hle
  refine ⟨before, p, after, cs.take n, htable, ?_, htake, List.take_prefix n cs, ?_, ?_⟩
  · intro q hq w hw hstart
    have hmem : q ∈ table := htable ▸ List.mem_append_left _ hq
    obtain ⟨m, hm, -⟩ := exists_length?_of_mem_language hmem hw hstart
    cases hm.symm.trans (hbefore q hq)
  · rw [hlength]
    exact hfirst
  · intro q hq w hw hstart
    have hless : q ≠ p → w.length < n := by
      intro hne
      obtain ⟨m, hm, hwm⟩ := exists_length?_of_mem_language hq hw hstart
      exact Nat.lt_of_le_of_lt hwm (lt_of_first? hfirst hq hne hm)
    have hwn : w.length ≤ n := by
      by_cases hqp : q = p
      · subst hqp
        exact hmost w hw hstart
      · exact Nat.le_of_lt (hless hqp)
    rw [hlength]
    exact ⟨List.prefix_of_prefix_length_le hstart (List.take_prefix n cs) (hlength.symm ▸ hwn),
      hless⟩

/-- An arrow begins with a dash. -/
theorem firstMatch_longest_arrow :
    sign ['-'] .dash ∈ table ∧ ['-'] ∈ (sign ['-'] .dash).language ∧
      first? ['-', '>', '>', '='] = some (sign ['-', '>'] .arrow, 2) ∧
      ∀ q ∈ table, ∀ w ∈ q.language, w <+: ['-', '>', '>', '='] →
        w <+: ['-', '>'] ∧ (q ≠ sign ['-', '>'] .arrow → w.length < 2) := by
  have hdash : sign ['-'] .dash ∈ table := by decide
  obtain ⟨before, p, after, lexeme, -, -, -, hstart, hfirst, hmost⟩ :=
    firstMatch_longest ['-', '>', '>', '='] ⟨_, hdash, ['-'], rfl, by decide⟩
  have harrow : first? ['-', '>', '>', '='] = some (sign ['-', '>'] .arrow, 2) := rfl
  obtain ⟨rfl, hlength⟩ := Prod.mk.inj (Option.some.inj (hfirst.symm.trans harrow))
  have hlexeme : lexeme = ['-', '>'] := by
    rw [List.prefix_iff_eq_take.1 hstart, hlength]
    rfl
  subst hlexeme
  exact ⟨hdash, rfl, harrow, hmost⟩

/-! ## Numbers -/

/-- The text is one of those that the pattern describes. -/
def Describes (p : Pattern) (text : String) : Prop := text.toList ∈ p.language

/-- Only the pattern of numbers makes numbers, and it takes them as they are. -/
theorem eq_number_of_token? {p : Pattern} {value : String} (hp : p ∈ table)
    (h : p.token? cs = some (.number, value)) : p = number ∧ value = String.ofList cs := by
  cases p with
  | number =>
    cases h
    exact ⟨rfl, rfl⟩
  | word =>
    have hkind : TokenKind.ofWord (String.ofList cs) = .number :=
      congrArg Prod.fst (Option.some.inj h)
    unfold TokenKind.ofWord at hkind
    split at hkind <;> cases hkind
  | sign text kind =>
    cases h
    cases sign?_of_mem_table hp
  | _ => cases h

end Pattern

/-- The text of a number is as the pattern of numbers describes it. -/
theorem Token.scan_numbers {file : String} {offset : Nat} {cs : List Char} {tokens : List Token}
    (h : scan file offset cs = .ok tokens) :
    ∀ t ∈ tokens, t.kind = .number → Pattern.number.Describes t.value := by
  refine scan_induction
    (P := fun tokens => ∀ t ∈ tokens, t.kind = .number → Pattern.number.Describes t.value) ?_ ?_ h
  · intro position t ht
    cases List.mem_singleton.1 ht
    exact nofun
  · intro p cs n offset rest hp hn hrest t ht hkind
    rcases List.mem_append.1 ht with ht | ht
    · have htoken := ofLexeme?_eq_some (Option.mem_toList.1 ht)
      rw [hkind] at htoken
      obtain ⟨rfl, hvalue⟩ := Pattern.eq_number_of_token? hp htoken
      have hlongest := Pattern.longest_length? hp cs
      rw [hn] at hlongest
      rw [Pattern.Describes, hvalue, String.toList_ofList]
      exact hlongest.2.1
    · exact hrest t ht hkind

end Scriptlet
