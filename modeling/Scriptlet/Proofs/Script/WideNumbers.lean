import Mathlib.Algebra.Group.Nat.Defs
import Scriptlet.Artifact
import Scriptlet.Proofs.Decimal.Digits
import Scriptlet.Proofs.SyntaxTree.Writing
import Scriptlet.Proofs.Token.Tiling
import Scriptlet.Proofs.Typing.Numerals

/-!
Wide integers in scripts. A number that ends in the mark `n` is printed with its digits, less the
zeros in front, if it has digits only and fits into 128 bits; any other one is refused where it
stands.
-/

namespace Scriptlet

open Pattern

/-- A number with the mark `n` that is no integer of 128 bits. -/
def ExceedsWide (cs : List Char) : Prop :=
  '.' ∈ cs ∨ 'e' ∈ cs ∨ 'E' ∈ cs ∨ 2 ^ 127 - 1 < Nat.ofDigitChars 10 cs.dropLast 0

instance (cs : List Char) : Decidable (ExceedsWide cs) :=
  inferInstanceAs (Decidable (_ ∨ _ ∨ _ ∨ _))

/-! ## Reading the number -/

section

variable {c : Char} {cs : List Char}

theorem fractionLength_of_notMem (h : '.' ∉ cs) : fractionLength cs = 0 := by
  unfold fractionLength
  split
  · exact absurd List.mem_cons_self h
  · rfl

theorem powerLength_of_notMem (he : 'e' ∉ cs) (hE : 'E' ∉ cs) : powerLength cs = 0 := by
  cases cs with
  | nil => rfl
  | cons c cs =>
    rw [powerLength, if_neg]
    rintro (rfl | rfl)
    · exact he List.mem_cons_self
    · exact hE List.mem_cons_self

theorem wideLength_le (cs : List Char) : wideLength cs ≤ 1 := by
  unfold wideLength
  split <;> omega

/-- A number without fraction and power has digits only, but for the mark. -/
theorem isDigit_of_mem_dropLast (h : numberLength cs = cs.length) (hp : '.' ∉ cs) (he : 'e' ∉ cs)
    (hE : 'E' ∉ cs) : ∀ c ∈ cs.dropLast, c.isDigit = true := by
  have hrun : cs.length - 1 ≤ run Char.isDigit cs := by
    cases hm : run Char.isDigit cs with
    | zero =>
      rw [numberLength, hm] at h
      rw [← h]
      exact Nat.zero_le _
    | succ m =>
      have hdrop : ∀ {d : Char} (k : Nat), d ∉ cs → d ∉ cs.drop k := fun k hd hmem =>
        hd (List.mem_of_mem_drop hmem)
      rw [numberLength_of_run hm, fractionLength_of_notMem (hdrop _ hp),
        powerLength_of_notMem (hdrop _ he) (hdrop _ hE)] at h
      have hwide := wideLength_le (cs.drop (m + 1 + 0 + 0))
      omega
  have hdigits : run Char.isDigit (cs.dropLast ++ []) = cs.dropLast.length := by
    rw [List.append_nil, List.length_dropLast, List.dropLast_eq_take, run_take,
      Nat.min_eq_right hrun]
  exact (of_run_append hdigits).1

/-- A number that ends in the mark has a digit in front of it. -/
theorem exists_dropLast_of_numberLength (h : numberLength cs = cs.length)
    (hn : cs.getLast? = some 'n') :
    ∃ d ds, cs.dropLast = d :: ds ∧ cs = d :: ds ++ ['n'] ∧ d.isDigit = true := by
  obtain ⟨ds, rfl⟩ : ∃ ds, cs = ds ++ ['n'] := List.getLast?_eq_some_iff.1 hn
  cases ds with
  | nil => cases h
  | cons d ds =>
    refine ⟨d, ds, List.dropLast_concat, rfl, ?_⟩
    by_contra hd
    rw [List.cons_append, numberLength, run_cons, if_neg hd] at h
    cases h

end

/-- An integer is written with its digits, less the zeros in front. -/
theorem script_wide {wide : Int128} {ds : List Char} (hds : ∀ c ∈ ds, c.isDigit = true)
    (h : wide.val = Nat.ofDigitChars 10 ds 0) :
    (Literal.bigInt wide).script = String.ofList (significant ds) ++ "n" := by
  rw [← Digits.toDigits_ofDigitChars hds]
  show toString wide.val ++ "n" = _
  rw [h]
  rfl

section

variable {text : String} (h : numberLength text.toList = text.toList.length)
  (hn : text.toList.getLast? = some 'n')

include h hn

theorem ofNumeral?_of_exceedsWide (hwide : ExceedsWide text.toList) :
    Literal.ofNumeral? text = none := by
  obtain ⟨d, ds, hfront, htext, hd⟩ := exists_dropLast_of_numberLength h hn
  have hnone : Numeral.int128? (d :: ds) = none := by
    refine Option.eq_none_iff_forall_ne_some.2 fun wide hread => ?_
    obtain ⟨hdigits, hvalue⟩ := (int128?_eq_some_iff hd).1 hread
    -- A digit or the mark is none of the characters that a fraction or a power begins with.
    have habsent : ∀ c, c.isDigit = false → c ≠ 'n' → c ∉ text.toList := by
      intro c hc hne hmem
      rw [htext, List.mem_append, List.mem_singleton] at hmem
      rcases hmem with hmem | rfl
      · cases hc.symm.trans (hdigits c hmem)
      · exact hne rfl
    rcases hwide with hpoint | hpower | hpower | hlarge
    · exact habsent '.' rfl (by decide) hpoint
    · exact habsent 'e' rfl (by decide) hpower
    · exact habsent 'E' rfl (by decide) hpower
    · have hlt := wide.val_lt
      rw [hfront] at hlarge
      omega
  rw [ofNumeral?_of_mark htext, hnone]
  rfl

theorem exists_ofNumeral?_of_not_exceedsWide (hfits : ¬ExceedsWide text.toList) :
    ∃ value, Literal.ofNumeral? text = some value ∧
      value.script = String.ofList (significant text.toList.dropLast) ++ "n" := by
  obtain ⟨d, ds, hfront, htext, hd⟩ := exists_dropLast_of_numberLength h hn
  simp only [ExceedsWide, not_or, Nat.not_lt] at hfits
  obtain ⟨hpoint, he, hE, hsmall⟩ := hfits
  have hdigits := isDigit_of_mem_dropLast h hpoint he hE
  rw [hfront] at hdigits hsmall ⊢
  let wide : Int128 := ⟨Nat.ofDigitChars 10 (d :: ds) 0, by omega, by omega⟩
  have hread : Numeral.int128? (d :: ds) = some wide := (int128?_eq_some_iff hd).2 ⟨hdigits, rfl⟩
  refine ⟨.bigInt wide, ?_, script_wide hdigits rfl⟩
  rw [ofNumeral?_of_mark htext, hread]
  rfl

end

/-! ## Printing the number -/

/-- The tokens of a statement that prints a number of `size` bytes. -/
def printTokens (file : String) (size : Nat) (text : String) : List Token :=
  [⟨.printWord, "print", .covering file 0 5⟩, ⟨.openParen, "(", .covering file 5 1⟩,
    ⟨.number, text, .covering file 6 size⟩, ⟨.closeParen, ")", .covering file (6 + size) 1⟩,
    ⟨.semicolon, ";", .covering file (6 + size + 1) 1⟩,
    .endOfText ⟨(6 + size + 1 + 1).toUInt32, file⟩]

variable {text source : String}

theorem tokenize_print (file : Option String) (h : IsNumeral text) :
    tokenize ("print(" ++ text ++ ");") file =
      .ok (printTokens (file.getD Token.defaultFile) (Text.byteLength text.toList) text) := by
  have hsource : ("print(" ++ text ++ ");").toList =
      "print".toList ++ (['('] ++ (text.toList ++ ([')'] ++ [';']))) := by
    simp [String.toList_append]
  have hnumber : first? (text.toList ++ ([')'] ++ [';'])) = some (.number, text.toList.length) :=
    h.first? (delimited_cons.2 rfl)
  have hvalue : Pattern.number.token? text.toList = some (.number, text) := by
    rw [token?, String.ofList_toList]
  rw [tokenize, hsource]
  refine Token.scan_append_token (p := .word) (by rfl) (by rfl) ?_
  refine Token.scan_append_token (p := .sign ['('] .openParen) (by rfl) (by rfl) ?_
  refine Token.scan_append_token hnumber hvalue ?_
  refine Token.scan_append_token (p := .sign [')'] .closeParen) (by rfl) (by rfl) ?_
  exact Token.scan_eq_singleton (p := .sign [';'] .semicolon) rfl rfl

theorem parse_printTokens (file : String) (size : Nat) (text source : String) :
    ∃ t s t' s', parse (printTokens file size text) source =
      .ok ⟨.program, t, s, [⟨.printStmt, t', s', [⟨.num, text, .covering file 6 size, []⟩]⟩]⟩ :=
  ⟨_, _, _, _, rfl⟩

theorem analyze_print (t t' text : String) (s s' s'' : Span) :
    analyze ⟨.program, t, s, [⟨.printStmt, t', s', [⟨.num, text, s'', []⟩]⟩]⟩ =
      match Literal.ofNumeral? text with
      | some value => .ok ⟨[.print (.literal value)]⟩
      | none => .error ⟨.numberParseError text, s''.start⟩ := by
  have hstmt : checkStmt ⟨.printStmt, t', s', [⟨.num, text, s'', []⟩]⟩ =
      (do return .print (← checkExpr ⟨.num, text, s'', []⟩)) := by rw [checkStmt]
  rw [analyze, checkProgram, if_pos rfl, checkStmts, checkStmts, hstmt]
  cases h : Literal.ofNumeral? text with
  | none =>
    have hexpr : checkExpr ⟨.num, text, s'', []⟩ = throw ⟨.numberParseError text, s''.start⟩ := by
      rw [checkExpr, h]
    rw [hexpr]
    rfl
  | some value =>
    have hexpr : checkExpr ⟨.num, text, s'', []⟩ = pure (.literal value) := by rw [checkExpr, h]
    rw [hexpr]
    rfl

theorem script_print (value : Literal) :
    (⟨[.print (.literal value)]⟩ : Program).fold.script =
      "console.log(" ++ value.script ++ ");" := by
  show "\n".intercalate [indented 0 ("console.log(" ++ value.script ++ ");")] = _
  rw [← String.toList_inj]
  simp [indented]

/-- A number that is printed is read, or refused where it stands. -/
theorem compile_print (file : Option String) (h : IsNumeral text) :
    compile ("print(" ++ text ++ ");") file .js = match Literal.ofNumeral? text with
      | some value => .ok ("console.log(" ++ value.script ++ ");")
      | none => .error ⟨.numberParseError text, ⟨6, file.getD Token.defaultFile⟩⟩ := by
  obtain ⟨t, s, t', s', hparse⟩ := parse_printTokens (file.getD Token.defaultFile)
    (Text.byteLength text.toList) text ("print(" ++ text ++ ");")
  rw [compile, typed, tokenize_print file h]
  simp only [bind, Except.bind, hparse, analyze_print]
  cases Literal.ofNumeral? text with
  | none => rfl
  | some value => exact congrArg Except.ok (script_print value)

/-- A number with the mark is refused exactly if it has a fraction or a power of ten or does not
fit, and else printed with its digits, less the zeros in front. -/
theorem compile_print_wide (text : String) (file : Option String)
    (h : Pattern.number.length? text.toList = some text.toList.length)
    (hn : text.toList.getLast? = some 'n') :
    (compile ("print(" ++ text ++ ");") file .js =
        .error ⟨.numberParseError text, ⟨6, file.getD Token.defaultFile⟩⟩ ↔
      ExceedsWide text.toList) ∧
    (¬ExceedsWide text.toList → compile ("print(" ++ text ++ ");") file .js =
      .ok ("console.log(" ++ String.ofList (significant text.toList.dropLast) ++ "n);")) := by
  obtain ⟨-, -, -, -, hlength⟩ := exists_digit_of_length? h
  rw [compile_print file (isNumeral_iff.2 h)]
  by_cases hwide : ExceedsWide text.toList
  · rw [ofNumeral?_of_exceedsWide hlength hn hwide]
    exact ⟨iff_of_true rfl hwide, absurd hwide⟩
  · obtain ⟨value, hread, hscript⟩ := exists_ofNumeral?_of_not_exceedsWide hlength hn hwide
    have hline : "console.log(" ++ value.script ++ ");" =
        "console.log(" ++ String.ofList (significant text.toList.dropLast) ++ "n);" := by
      rw [hscript, ← String.append_assoc, String.append_assoc]
      rfl
    rw [hread]
    exact ⟨iff_of_false (by simp) hwide, fun _ => congrArg Except.ok hline⟩

/-- The greatest integer is printed without the zeros in front of it. -/
theorem compile_print_wide_greatest :
    compile "print(00170141183460469231731687303715884105727n);" none .js =
      .ok "console.log(170141183460469231731687303715884105727n);" :=
  (compile_print_wide "00170141183460469231731687303715884105727n" none (by decide) (by decide)).2
    (by decide)

end Scriptlet
