import Scriptlet.Proofs.Token.Reach
import Scriptlet.Proofs.Token.Terminals

/-!
How far patterns reach. A pattern looks at what it takes and at what stops it: if a text is cut
after the piece that the first pattern takes, the same pattern takes the same piece, and where none
matches none matches the cut text. Only blanks reach beyond the end of a line.
-/

namespace Scriptlet

namespace Pattern

/-- The pattern takes so many characters from the start of the text. -/
inductive Takes : Pattern → List Char → Nat → Prop where
  | word : isWordStart c = true → Takes word (c :: cs) (run isWordPart cs + 1)
  | number : numberLength cs = n + 1 → Takes number cs (n + 1)
  | blanks : run Text.isBlank cs = n + 1 → Takes blanks cs (n + 1)
  | string : stringLength? cs = some n → Takes string ('"' :: cs) (n + 1)
  | comment : Takes comment ('/' :: '/' :: cs) (run (· ≠ '\n') cs + 2)
  | sign : text.length = n + 1 → Takes (sign text kind) (text ++ cs) (n + 1)

variable {p : Pattern} {q : Char → Bool} {c : Char} {cs ds : List Char} {k n : Nat}

theorem nonzero?_eq_some_iff {m : Nat} : nonzero? m = some n ↔ m = n ∧ 0 < n := by
  cases m with
  | zero => simp [nonzero?]; omega
  | succ m => simp [nonzero?]; omega

/-- The length that a pattern takes, as a relation. -/
theorem length?_eq_some_iff : p.length? cs = some n ↔ p.Takes cs n := by
  constructor
  · intro h
    unfold length? at h
    split at h
    · split at h
      · next hc =>
        cases h
        exact .word hc
      · cases h
    · obtain ⟨h, hpos⟩ := nonzero?_eq_some_iff.1 h
      obtain ⟨n, rfl⟩ := Nat.exists_eq_succ_of_ne_zero (Nat.ne_of_gt hpos)
      exact .number h
    · obtain ⟨h, hpos⟩ := nonzero?_eq_some_iff.1 h
      obtain ⟨n, rfl⟩ := Nat.exists_eq_succ_of_ne_zero (Nat.ne_of_gt hpos)
      exact .blanks h
    · obtain ⟨m, hm, rfl⟩ := Option.map_eq_some_iff.1 h
      exact .string hm
    · cases h
      exact .comment
    · split at h
      · next hprefix =>
        obtain ⟨h, hpos⟩ := nonzero?_eq_some_iff.1 h
        obtain ⟨n, rfl⟩ := Nat.exists_eq_succ_of_ne_zero (Nat.ne_of_gt hpos)
        obtain ⟨rest, rfl⟩ := List.isPrefixOf_iff_prefix.1 hprefix
        exact .sign h
      · cases h
    · cases h
  · intro h
    cases h with
    | word hc => rw [length?, if_pos hc]
    | number h => rw [length?, h]; rfl
    | blanks h => rw [length?, h]; rfl
    | string h => rw [length?, h]; rfl
    | comment => rw [length?]
    | sign h =>
      rw [length?_sign, if_pos (List.isPrefixOf_iff_prefix.2 (List.prefix_append ..)), h]
      rfl

/-! ## Pieces -/

theorem run_cons : run q (c :: cs) = if q c then run q cs + 1 else 0 := by
  rw [run, List.takeWhile_cons]
  split <;> rfl

theorem take_run (q : Char → Bool) (cs : List Char) : cs.take (run q cs) = cs.takeWhile q :=
  (List.prefix_iff_eq_take.1 (List.takeWhile_prefix q)).symm

theorem run_le_length (q : Char → Bool) (cs : List Char) : run q cs ≤ cs.length :=
  (List.takeWhile_prefix q).length_le

/-- A run that ends with a text holds of all of it, and of no character after it. -/
theorem of_run_append (h : run q (cs ++ ds) = cs.length) :
    (∀ c ∈ cs, q c = true) ∧ ∀ c ∈ ds.head?, q c = false := by
  induction cs with
  | nil =>
    refine ⟨List.forall_mem_nil _, fun c hc => ?_⟩
    obtain ⟨ds, rfl⟩ := List.head?_eq_some_iff.1 hc
    cases hq : q c with
    | false => rfl
    | true => simp [run_cons, hq] at h
  | cons c cs ih =>
    rw [List.cons_append, run_cons] at h
    split at h
    · next hc =>
      obtain ⟨hcs, hds⟩ := ih (Nat.succ.inj h)
      exact ⟨List.forall_mem_cons.2 ⟨hc, hcs⟩, hds⟩
    · cases h

theorem fractionLength_le_length (cs : List Char) : fractionLength cs ≤ cs.length := by
  unfold fractionLength
  split
  · next cs =>
    have := run_le_length Char.isDigit cs
    split <;> simp only [List.length_cons] <;> omega
  · exact Nat.zero_le _

theorem signLength_le (cs : List Char) : signLength cs ≤ 1 := by
  unfold signLength
  split <;> omega

theorem powerLength_le_length (cs : List Char) : powerLength cs ≤ cs.length := by
  unfold powerLength
  split
  · next c cs =>
    have hrun := run_le_length Char.isDigit (cs.drop (signLength cs))
    rw [List.length_drop] at hrun
    split
    · split <;> simp only [List.length_cons] <;> omega
    · exact Nat.zero_le _
  · exact Nat.zero_le _

theorem wideLength_le_length (cs : List Char) : wideLength cs ≤ cs.length := by
  unfold wideLength
  split <;> simp

/-- A number is its digits and, one after the other, a fraction, a power and a mark. -/
theorem numberLength_of_run {m : Nat} (h : run Char.isDigit cs = m + 1) :
    numberLength cs = m + 1 + fractionLength (cs.drop (m + 1)) +
      powerLength (cs.drop (m + 1 + fractionLength (cs.drop (m + 1)))) +
      wideLength (cs.drop (m + 1 + fractionLength (cs.drop (m + 1)) +
        powerLength (cs.drop (m + 1 + fractionLength (cs.drop (m + 1)))))) := by
  rw [numberLength, h]

theorem add_le_length {f : List Char → Nat} (hf : ∀ cs, f cs ≤ cs.length) {m : Nat}
    (hm : m ≤ cs.length) : m + f (cs.drop m) ≤ cs.length := by
  have := hf (cs.drop m)
  rw [List.length_drop] at this
  omega

theorem numberLength_le_length (cs : List Char) : numberLength cs ≤ cs.length := by
  cases hm : run Char.isDigit cs with
  | zero =>
    rw [numberLength, hm]
    exact Nat.zero_le _
  | succ m =>
    rw [numberLength_of_run hm]
    exact add_le_length wideLength_le_length (add_le_length powerLength_le_length
      (add_le_length fractionLength_le_length (hm ▸ run_le_length ..)))

/-- A string ends with its quote. -/
theorem exists_take_of_stringLength? (h : stringLength? cs = some n) :
    ∃ raw rest, cs = raw ++ '"' :: rest ∧ n = raw.length + 1 := by
  fun_induction stringLength? cs generalizing n with
  | case1 => cases h
  | case2 cs =>
    cases h
    exact ⟨[], cs, rfl, rfl⟩
  | case3 => cases h
  | case4 => cases h
  | case5 c cs _ ih =>
    obtain ⟨m, hm, rfl⟩ := Option.map_eq_some_iff.1 h
    obtain ⟨raw, rest, rfl, rfl⟩ := ih hm
    exact ⟨'\\' :: c :: raw, rest, rfl, rfl⟩
  | case6 => cases h
  | case7 c cs _ _ _ _ ih =>
    obtain ⟨m, hm, rfl⟩ := Option.map_eq_some_iff.1 h
    obtain ⟨raw, rest, rfl, rfl⟩ := ih hm
    exact ⟨c :: raw, rest, rfl, rfl⟩

theorem Takes.le_length (h : p.Takes cs n) : n ≤ cs.length := by
  cases h with
  | word => exact Nat.succ_le_succ (run_le_length ..)
  | number h => exact h ▸ numberLength_le_length _
  | blanks h => exact h ▸ run_le_length ..
  | string h =>
    obtain ⟨raw, rest, rfl, rfl⟩ := exists_take_of_stringLength? h
    simp
  | comment => exact Nat.add_le_add_right (run_le_length ..) 2
  | sign h => simp [← h]

/-- A piece is not longer than the text. -/
theorem first?_le_length (h : first? cs = some (p, n)) : n ≤ cs.length :=
  (length?_eq_some_iff.1 (first?_eq_some h).2).le_length

/-- Induction over a text piece by piece, up to its end or to a place where no pattern matches. -/
theorem pieces_induction {motive : List Char → Prop} (nil : motive [])
    (gap : ∀ c cs, first? (c :: cs) = none → motive (c :: cs))
    (piece : ∀ p lexeme cs, first? (lexeme ++ cs) = some (p, lexeme.length) → motive cs →
      motive (lexeme ++ cs)) (cs : List Char) : motive cs := by
  induction hlen : cs.length using Nat.strongRecOn generalizing cs with
  | ind len ih =>
    cases cs with
    | nil => exact nil
    | cons c cs =>
      cases hfirst : first? (c :: cs) with
      | none => exact gap c cs hfirst
      | some found =>
        obtain ⟨p, n⟩ := found
        have hle := first?_le_length hfirst
        have hpos := first?_pos hfirst
        have hrest : motive ((c :: cs).drop n) := by
          refine ih _ ?_ _ rfl
          rw [List.length_drop]
          omega
        have htake : ((c :: cs).take n).length = n := by rw [List.length_take, Nat.min_eq_left hle]
        have hmotive := piece p ((c :: cs).take n) ((c :: cs).drop n)
          (by rw [List.take_append_drop, htake]; exact hfirst) hrest
        rwa [List.take_append_drop] at hmotive

/-! ## Cutting a text -/

/-- A length at the start of a text that does not change when the text is cut after it. -/
def Truncates (f : List Char → Nat) : Prop := ∀ ⦃cs k⦄, f cs ≤ k → f (cs.take k) = f cs

/-- It suffices to look at texts with a first character that is kept. -/
theorem Truncates.of_cons {f : List Char → Nat} (hnil : f [] = 0)
    (hcons : ∀ c cs k, f (c :: cs) ≤ k + 1 → f (c :: cs.take k) = f (c :: cs)) : Truncates f := by
  intro cs k h
  cases cs with
  | nil => rw [List.take_nil]
  | cons c cs =>
    cases k with
    | zero => rw [List.take_zero, hnil, Nat.le_zero.1 h]
    | succ k => exact hcons c cs k h

/-- A text behind the piece does not matter. -/
theorem Truncates.append {f : List Char → Nat} (hf : Truncates f) (h : f (cs ++ ds) ≤ cs.length) :
    f cs = f (cs ++ ds) := by
  have hcut := hf h
  rwa [List.take_left] at hcut

theorem run_take (q : Char → Bool) (cs : List Char) (k : Nat) :
    run q (cs.take k) = min (run q cs) k := by
  induction cs generalizing k with
  | nil => simp [run]
  | cons c cs ih =>
    cases k with
    | zero => simp [run]
    | succ k =>
      rw [List.take_succ_cons, run_cons, run_cons, ih]
      split <;> omega

theorem truncates_run (q : Char → Bool) : Truncates (run q) := by
  intro cs k h
  rw [run_take, Nat.min_eq_left h]

theorem truncates_fractionLength : Truncates fractionLength := by
  refine .of_cons rfl fun c cs k h => ?_
  by_cases hc : c = '.'
  · subst hc
    simp only [fractionLength] at h ⊢
    rw [run_take]
    cases hn : run Char.isDigit cs with
    | zero => rw [Nat.zero_min]
    | succ n =>
      rw [hn] at h
      dsimp only at h
      rw [Nat.min_eq_left (by omega)]
  · rw [fractionLength, fractionLength] <;> simp [hc]

theorem truncates_signLength : Truncates signLength := by
  refine .of_cons rfl fun c cs k _ => ?_
  unfold signLength
  split <;> split <;> simp_all

theorem truncates_powerLength : Truncates powerLength := by
  refine .of_cons rfl fun c cs k h => ?_
  rw [powerLength] at h
  rw [powerLength, powerLength]
  by_cases hc : c = 'e' ∨ c = 'E'
  · rw [if_pos hc] at h ⊢
    rw [if_pos hc]
    by_cases hk : signLength cs ≤ k
    · rw [truncates_signLength hk, List.drop_take, run_take]
      cases hn : run Char.isDigit (cs.drop (signLength cs)) with
      | zero => rw [Nat.zero_min]
      | succ n =>
        rw [hn] at h
        dsimp only at h
        rw [Nat.min_eq_left (by omega)]
    · -- the sign is cut off, so that there was no room for digits
      obtain rfl : k = 0 := by have := signLength_le cs; omega
      cases hn : run Char.isDigit (cs.drop (signLength cs)) with
      | zero => rfl
      | succ n =>
        rw [hn] at h
        dsimp only at h
        omega
  · rw [if_neg hc, if_neg hc]

theorem truncates_wideLength : Truncates wideLength := by
  refine .of_cons rfl fun c cs k _ => ?_
  unfold wideLength
  split <;> split <;> simp_all

theorem Truncates.drop {f : List Char → Nat} (hf : Truncates f) {m : Nat}
    (h : m + f (cs.drop m) ≤ k) : f ((cs.take k).drop m) = f (cs.drop m) := by
  rw [List.drop_take]
  exact hf (by omega)

/-- A number is cut off where the text is. -/
theorem truncates_numberLength : Truncates numberLength := by
  intro cs k h
  cases hm : run Char.isDigit cs with
  | zero => rw [numberLength, numberLength, run_take, hm, Nat.zero_min]
  | succ m =>
    rw [numberLength_of_run hm] at h
    have hrun : run Char.isDigit (cs.take k) = m + 1 := by
      rw [run_take, hm, Nat.min_eq_left (by omega)]
    rw [numberLength_of_run hm, numberLength_of_run hrun,
      truncates_fractionLength.drop (by omega), truncates_powerLength.drop (by omega),
      truncates_wideLength.drop h]

theorem stringLength?_cons (hquote : c ≠ '"') (hbackslash : c ≠ '\\') :
    stringLength? (c :: cs) = if c = '\n' then none else (stringLength? cs).map (· + 1) := by
  rw [stringLength?] <;> simp [hquote, hbackslash]

theorem map_add_eq_some_iff {x y : Option Nat} {m : Nat}
    (h : ∀ n, x = some n ↔ y = some n ∧ n ≤ k) :
    x.map (· + m) = some n ↔ y.map (· + m) = some n ∧ n ≤ k + m := by
  simp only [Option.map_eq_some_iff, h]
  constructor
  · rintro ⟨a, ⟨ha, hk⟩, rfl⟩
    exact ⟨⟨a, ha, rfl⟩, by omega⟩
  · rintro ⟨⟨a, ha, rfl⟩, hk⟩
    exact ⟨a, ⟨ha, by omega⟩, rfl⟩

/-- A string ends within the cut text, or it is no string there. -/
theorem stringLength?_take_eq_some_iff :
    stringLength? (cs.take k) = some n ↔ stringLength? cs = some n ∧ n ≤ k := by
  fun_induction stringLength? cs generalizing k n with
  | case1 => simp [stringLength?]
  | case2 cs => cases k <;> simp [stringLength?] <;> omega
  | case3 => cases k <;> simp [stringLength?]
  | case4 cs => rcases k with _ | _ | k <;> simp [stringLength?]
  | case5 c cs hc ih =>
    rcases k with _ | _ | k
    · simp [stringLength?]; omega
    · simp [stringLength?]; omega
    · rw [List.take_succ_cons, List.take_succ_cons, stringLength?, if_neg hc]
      exact map_add_eq_some_iff fun _ => ih
  | case6 cs hquote hnil hcons => cases k <;> simp [stringLength?]
  | case7 c cs hquote hnil hcons hc ih =>
    have hbackslash : c ≠ '\\' := by
      rintro rfl
      cases cs with
      | nil => exact hnil rfl rfl
      | cons d cs => exact hcons d cs rfl rfl
    cases k with
    | zero => simp [stringLength?]; omega
    | succ k =>
      rw [List.take_succ_cons, stringLength?_cons hquote hbackslash, if_neg hc]
      exact map_add_eq_some_iff fun _ => ih

/-- Whether a string is closed is seen before its closing quote. -/
theorem stringLength?_append_eq_some_iff :
    stringLength? cs = some n ↔ stringLength? (cs ++ ds) = some n ∧ n ≤ cs.length := by
  rw [← stringLength?_take_eq_some_iff, List.take_left]

/-- What follows the piece that a pattern takes can be cut off. -/
theorem Takes.of_append (h : p.Takes (cs ++ ds) n) (hn : n ≤ cs.length) : p.Takes cs n := by
  generalize hes : cs ++ ds = es at h
  cases h with
  | number h =>
    subst hes
    exact .number ((truncates_numberLength.append (by omega)).trans h)
  | blanks h =>
    subst hes
    exact .blanks (((truncates_run _).append (by omega)).trans h)
  | word hc =>
    cases cs with
    | nil => cases hn
    | cons c cs =>
      rw [List.cons_append] at hes
      cases hes
      rw [← (truncates_run _).append (Nat.le_of_succ_le_succ hn)]
      exact .word hc
  | string h =>
    cases cs with
    | nil => cases hn
    | cons c cs =>
      cases hes
      exact .string (stringLength?_append_eq_some_iff.2 ⟨h, Nat.le_of_succ_le_succ hn⟩)
  | comment =>
    rcases cs with _ | ⟨c, _ | ⟨d, cs⟩⟩
    · cases hn
    · simp at hn
    · rw [List.cons_append, List.cons_append] at hes
      cases hes
      rw [← (truncates_run _).append (by simpa using hn)]
      exact .comment
  | sign h =>
    obtain ⟨rest, rfl⟩ := List.prefix_of_prefix_length_le (by rw [hes]; exact List.prefix_append ..)
      (List.prefix_append cs ds) (h ▸ hn)
    exact .sign h

/-- A pattern that matches goes on to match when text is added. -/
theorem Takes.exists_append (h : p.Takes cs n) (ds : List Char) : ∃ m, p.Takes (cs ++ ds) m := by
  have hpos : ∀ {f : List Char → Nat}, Truncates f → f cs = n → 0 < n →
      ∃ m, f (cs ++ ds) = m + 1 := by
    intro f hf hn hpos
    refine Nat.exists_eq_succ_of_ne_zero fun hzero => ?_
    have := hf.append (by omega : f (cs ++ ds) ≤ cs.length)
    omega
  cases h with
  | word hc => exact ⟨_, .word hc⟩
  | number h =>
    obtain ⟨m, hm⟩ := hpos truncates_numberLength h (Nat.succ_pos _)
    exact ⟨_, .number hm⟩
  | blanks h =>
    obtain ⟨m, hm⟩ := hpos (truncates_run _) h (Nat.succ_pos _)
    exact ⟨_, .blanks hm⟩
  | string h => exact ⟨_, .string (stringLength?_append_eq_some_iff.1 h).1⟩
  | comment => exact ⟨_, .comment⟩
  | sign h =>
    rw [List.append_assoc]
    exact ⟨_, .sign h⟩

theorem length?_eq_none_of_append (h : p.length? (cs ++ ds) = none) : p.length? cs = none := by
  refine Option.eq_none_iff_forall_ne_some.2 fun n hn => ?_
  obtain ⟨m, hm⟩ := (length?_eq_some_iff.1 hn).exists_append ds
  rw [length?_eq_some_iff.2 hm] at h
  cases h

/-- What begins with no piece does not begin with one when it is cut. -/
theorem first?_eq_none_of_append (h : first? (cs ++ ds) = none) : first? cs = none := by
  rw [first?_eq_none_iff] at h ⊢
  exact fun p hp => length?_eq_none_of_append (h p hp)

/-- The text after the first piece can be cut off. -/
theorem first?_of_append (h : first? (cs ++ ds) = some (p, n)) (hn : n ≤ cs.length) :
    first? cs = some (p, n) := by
  obtain ⟨before, q, after, htable, hq, hbefore⟩ := List.findSome?_eq_some_iff.1 h
  obtain ⟨m, hm, he⟩ := Option.map_eq_some_iff.1 hq
  cases he
  refine List.findSome?_eq_some_iff.2 ⟨before, p, after, htable, ?_, fun p' hp' => ?_⟩
  · rw [length?_eq_some_iff.2 ((length?_eq_some_iff.1 hm).of_append hn)]
    rfl
  · rw [length?_eq_none_of_append (Option.map_eq_none_iff.1 (hbefore p' hp'))]
    rfl

/-! ## Blanks -/

theorem toNat_of_isBlank (h : Text.isBlank c = true) :
    c.toNat ≤ 32 ∨ 128 ≤ c.toNat := by
  simp only [Text.isBlank, Bool.or_eq_true, Bool.and_eq_true, decide_eq_true_eq, beq_iff_eq] at h
  omega

/-- A blank begins a run of blanks, and no other piece. -/
theorem first?_of_isBlank (h : Text.isBlank c = true) :
    first? (c :: cs) = some (blanks, run Text.isBlank (c :: cs)) := by
  have hnat := toNat_of_isBlank h
  have hword : isWordStart c = false := by
    rw [← Bool.not_eq_true]
    intro hword
    have := toNat_of_isWordStart hword
    omega
  have hdigit : c.isDigit = false := by
    rw [← Bool.not_eq_true]
    intro hdigit
    have : 48 ≤ c.toNat ∧ c.toNat ≤ 57 := Char.isDigit_iff_toNat.1 hdigit
    omega
  have hnumber : numberLength (c :: cs) = 0 := by
    simp [numberLength, run_cons, hdigit]
  rw [run_cons, if_pos h]
  simp [first?, table, length?, hword, hnumber, run_cons, h, nonzero?]

theorem isBlank_eq_false_of_first? {result : Option (Pattern × Nat)}
    (h : first? (c :: cs) = result) (hresult : ∀ n, result ≠ some (blanks, n)) :
    Text.isBlank c = false := by
  rw [← Bool.not_eq_true]
  intro hc
  exact hresult _ (h.symm.trans (first?_of_isBlank hc))

theorem isBlank_of_first?_blanks {lexeme : List Char}
    (h : first? (lexeme ++ cs) = some (blanks, lexeme.length)) :
    ∀ c ∈ lexeme, Text.isBlank c = true := by
  have htakes := length?_eq_some_iff.1 (first?_eq_some h).2
  generalize hn : lexeme.length = n at htakes
  cases htakes with
  | blanks hrun => exact (of_run_append (hrun.trans hn.symm)).1

theorem first?_ne_blanks (hc : Text.isBlank c = false) : first? (c :: cs) ≠ some (blanks, n) := by
  intro h
  cases length?_eq_some_iff.1 (first?_eq_some h).2 with
  | blanks hrun =>
    rw [run_cons, hc] at hrun
    cases hrun

/-! ## Lines -/

/-- A length at the start of a text that does not go beyond its first line. -/
def OneLine (f : List Char → Nat) : Prop := ∀ cs : List Char, '\n' ∉ cs.take (f cs)

theorem OneLine.take_add {m : Nat} {f : List Char → Nat} (hf : OneLine f) (h : '\n' ∉ cs.take m) :
    '\n' ∉ cs.take (m + f (cs.drop m)) := by
  rw [List.take_add, List.mem_append, not_or]
  exact ⟨h, hf _⟩

theorem oneLine_run (hq : q '\n' = false) : OneLine (run q) := by
  intro cs h
  rw [take_run] at h
  rw [List.all_eq_true.1 List.all_takeWhile _ h] at hq
  cases hq

theorem oneLine_fractionLength : OneLine fractionLength := by
  intro cs
  unfold fractionLength
  split
  · split
    · simp
    · next cs _ m hm =>
      have hdigits := oneLine_run (q := Char.isDigit) (by decide) cs
      rw [hm] at hdigits
      simpa using hdigits
  · simp

theorem oneLine_signLength : OneLine signLength := by
  intro cs
  unfold signLength
  split <;> simp

theorem oneLine_powerLength : OneLine powerLength := by
  intro cs
  cases cs with
  | nil => simp
  | cons c cs =>
    rw [powerLength]
    split
    · next hc =>
      split
      · simp
      · next m hm =>
        have hne : '\n' ≠ c := by rcases hc with rfl | rfl <;> decide
        have hpower :=
          (oneLine_run (q := Char.isDigit) (by decide)).take_add (oneLine_signLength cs)
        rw [hm] at hpower
        rw [List.take_succ_cons, List.mem_cons, not_or]
        exact ⟨hne, hpower⟩
    · simp

theorem oneLine_wideLength : OneLine wideLength := by
  intro cs
  unfold wideLength
  split <;> simp

theorem oneLine_numberLength : OneLine numberLength := by
  intro cs
  cases hm : run Char.isDigit cs with
  | zero =>
    rw [numberLength, hm]
    simp
  | succ m =>
    rw [numberLength_of_run hm]
    have hwhole : '\n' ∉ cs.take (m + 1) := hm ▸ oneLine_run (by decide) cs
    exact oneLine_wideLength.take_add (oneLine_powerLength.take_add
      (oneLine_fractionLength.take_add hwhole))

/-- A string does not go over the end of a line. -/
theorem newline_not_mem_string (h : stringLength? cs = some n) : '\n' ∉ cs.take n := by
  fun_induction stringLength? cs generalizing n with
  | case1 => cases h
  | case2 cs =>
    cases h
    simp
  | case3 => cases h
  | case4 => cases h
  | case5 c cs hc ih =>
    obtain ⟨m, hm, rfl⟩ := Option.map_eq_some_iff.1 h
    simp [ih hm, Ne.symm hc]
  | case6 => cases h
  | case7 c cs _ _ _ hc ih =>
    obtain ⟨m, hm, rfl⟩ := Option.map_eq_some_iff.1 h
    simp [ih hm, Ne.symm hc]

theorem newline_not_mem_sign {text : List Char} {kind : TokenKind} (h : sign text kind ∈ table) :
    '\n' ∉ text := by
  simp only [table, List.mem_cons, reduceCtorEq, false_or, List.not_mem_nil, or_false] at h
  rcases h with h | h | h | h | h | h | h | h | h | h | h | h | h | h | h | h | h | h | h | h | h |
    h <;> cases h <;> decide

/-- Only blanks reach beyond the end of a line. -/
theorem Takes.newline_not_mem (h : p.Takes cs n) (hp : p ∈ table) (hblanks : p ≠ .blanks) :
    '\n' ∉ cs.take n := by
  cases h with
  | word hc =>
    rw [List.take_succ_cons, List.mem_cons, not_or]
    refine ⟨?_, oneLine_run (by decide) _⟩
    rintro rfl
    cases hc
  | number h => exact h ▸ oneLine_numberLength _
  | blanks => exact absurd rfl hblanks
  | string h =>
    rw [List.take_succ_cons, List.mem_cons, not_or]
    exact ⟨by decide, newline_not_mem_string h⟩
  | comment =>
    rw [List.take_succ_cons, List.take_succ_cons, List.mem_cons, List.mem_cons, not_or, not_or]
    exact ⟨by decide, by decide, oneLine_run (by decide) _⟩
  | sign h =>
    rw [← h, List.take_left]
    exact newline_not_mem_sign hp

/-- What follows the line does not matter to a piece that begins in it, unless it is blank. -/
theorem first?_append_newline (hc : Text.isBlank c = false) (cs ds : List Char) :
    first? (c :: cs ++ '\n' :: ds) = first? (c :: cs) := by
  cases h : first? (c :: cs ++ '\n' :: ds) with
  | none => exact (first?_eq_none_of_append h).symm
  | some piece =>
    obtain ⟨p, n⟩ := piece
    obtain ⟨hp, hlength⟩ := first?_eq_some h
    have hblanks : p ≠ blanks := by
      rintro rfl
      exact first?_ne_blanks hc h
    have hnewline := (length?_eq_some_iff.1 hlength).newline_not_mem hp hblanks
    refine (first?_of_append h (Nat.le_of_not_lt fun hlong => hnewline ?_)).symm
    obtain ⟨j, rfl⟩ := Nat.exists_eq_add_of_lt hlong
    rw [Nat.add_assoc, List.take_length_add_append]
    simp

end Pattern

end Scriptlet
