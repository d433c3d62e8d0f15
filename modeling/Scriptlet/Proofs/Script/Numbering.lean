import Scriptlet.Proofs.Script.Renamed

/-!
The names that a script gives to the variables declared in it. No two of them are the same, but they
are made of the same characters as other names are: a function or a parameter may have such a name
of its own.
-/

namespace Scriptlet

/-! ## Numbered names -/

theorem toList_numbered (name : String) (n : Nat) :
    (name ++ "_" ++ toString n).toList = name.toList ++ '_' :: Nat.toDigits 10 n := by
  simp [Nat.toString_eq_repr, Nat.toList_repr]

theorem underscore_not_mem_toDigits (n : Nat) : '_' ∉ Nat.toDigits 10 n := by
  intro h
  have hdigit := Nat.isDigit_of_mem_toDigits (by decide) (by decide) h
  exact absurd hdigit (by decide)

/-- A list is divided in one way at the last element of its kind. -/
theorem append_cons_inj {a b ds es : List Char} {c : Char} (hd : c ∉ ds) (he : c ∉ es)
    (h : a ++ c :: ds = b ++ c :: es) : a = b ∧ ds = es := by
  rcases List.append_eq_append_iff.1 h with ⟨as, hb, hds⟩ | ⟨bs, ha, hes⟩
  · cases as with
    | nil => exact ⟨by simpa using hb.symm, List.tail_eq_of_cons_eq hds⟩
    | cons x as =>
      have hds : ds = as ++ c :: es := List.tail_eq_of_cons_eq hds
      exact absurd (hds ▸ List.mem_append_right _ List.mem_cons_self) hd
  · cases bs with
    | nil => exact ⟨by simpa using ha, (List.tail_eq_of_cons_eq hes).symm⟩
    | cons x bs =>
      have hes : es = bs ++ c :: ds := List.tail_eq_of_cons_eq hes
      exact absurd (hes ▸ List.mem_append_right _ List.mem_cons_self) he

/-- A numbered name is of one name and one number. -/
theorem numbered_inj {x y : String} {m n : Nat} :
    x ++ "_" ++ toString m = y ++ "_" ++ toString n ↔ x = y ∧ m = n := by
  constructor
  · intro h
    have hlist := congrArg String.toList h
    rw [toList_numbered, toList_numbered] at hlist
    obtain ⟨hname, hdigits⟩ := append_cons_inj (underscore_not_mem_toDigits m)
      (underscore_not_mem_toDigits n) hlist
    have hnumber := congrArg (Nat.ofDigitChars 10 · 0) hdigits
    simp only [Nat.ofDigitChars_toDigits (b := 10) (by decide) (by decide)] at hnumber
    exact ⟨String.toList_inj.1 hname, hnumber⟩
  · rintro ⟨rfl, rfl⟩
    rfl

theorem numbered_ne_self (name : String) (n : Nat) : name ++ "_" ++ toString n ≠ name := by
  intro h
  have hlist := congrArg String.toList h
  rw [toList_numbered] at hlist
  have hlength := congrArg List.length hlist
  simp at hlength

/-! ## The names of declarations -/

/-- The names of further declarations, after some. -/
def numberAfter (before : List String) : List String → List String
  | [] => []
  | x :: xs => (x ++ "_" ++ toString (before.count x + 1)) :: numberAfter (before ++ [x]) xs

theorem numberAfter_append (before xs ys : List String) :
    numberAfter before (xs ++ ys) = numberAfter before xs ++ numberAfter (before ++ xs) ys := by
  induction xs generalizing before with
  | nil => simp [numberAfter]
  | cons x xs ih =>
    rw [List.cons_append, numberAfter, numberAfter, ih, List.append_assoc, List.singleton_append,
      List.cons_append]

/-- Each name has its numbers in turn. -/
theorem mem_numberAfter {before xs : List String} {y : String} : y ∈ numberAfter before xs ↔
    ∃ x k, y = x ++ "_" ++ toString k ∧ before.count x < k ∧ k ≤ before.count x + xs.count x := by
  induction xs generalizing before with
  | nil =>
    simp only [numberAfter, List.not_mem_nil, false_iff, not_exists, List.count_nil]
    omega
  | cons z zs ih =>
    have hsum : ∀ x, (before ++ [z]).count x + zs.count x = before.count x + (z :: zs).count x := by
      intro x
      rw [← List.count_append, ← List.count_append, List.append_assoc, List.singleton_append]
    rw [numberAfter, List.mem_cons, ih]
    constructor
    · rintro (rfl | ⟨x, k, rfl, hlt, hle⟩)
      · refine ⟨z, _, rfl, Nat.lt_succ_self _, ?_⟩
        rw [List.count_cons_self]
        omega
      · rw [List.count_append] at hlt
        exact ⟨x, k, rfl, by omega, hsum x ▸ hle⟩
    · rintro ⟨x, k, rfl, hlt, hle⟩
      rw [← hsum] at hle
      by_cases hk : (before ++ [z]).count x < k
      · exact .inr ⟨x, k, rfl, hk, hle⟩
      -- the number is the one that `z` has here
      · rw [List.count_append, List.count_singleton] at hk
        by_cases hx : z = x
        · subst hx
          rw [if_pos (beq_self_eq_true z)] at hk
          exact .inl (numbered_inj.2 ⟨rfl, by omega⟩)
        · rw [if_neg (by simpa using hx)] at hk
          omega

theorem nodup_numberAfter (before xs : List String) : (numberAfter before xs).Nodup := by
  induction xs generalizing before with
  | nil => exact List.nodup_nil
  | cons x xs ih =>
    refine List.nodup_cons.2 ⟨fun h => ?_, ih _⟩
    obtain ⟨y, k, heq, hlt, -⟩ := mem_numberAfter.1 h
    obtain ⟨rfl, rfl⟩ := numbered_inj.1 heq
    simp at hlt

/-- A name that is declared once has the number one. -/
theorem numberAfter_of_nodup {before xs : List String} (h : (before ++ xs).Nodup) :
    numberAfter before xs = xs.map (· ++ "_1") := by
  induction xs generalizing before with
  | nil => rfl
  | cons x xs ih =>
    have hx : before.count x = 0 := by
      apply List.count_eq_zero.2
      exact fun hmem => (List.nodup_append.1 h).2.2 x hmem x List.mem_cons_self rfl
    have hone : x ++ "_" ++ toString (0 + 1) = x ++ "_1" := String.append_assoc
    rw [numberAfter, hx, hone, List.map_cons, ih (by simpa using h)]

namespace Stmt

theorem letsAll_renamedAll (before : List String) (ss : List Stmt) :
    letsAll (renamedAll before ss) = numberAfter before (letsAll ss) := by
  induction ss using Stmt.induction (P := fun s => ∀ before,
      (s.renamed before).lets = numberAfter before s.lets) generalizing before with
  | step s ih before =>
    cases s with
    | varDec v e => simp [renamed, lets, numberAfter, Variable.renamed, nameAfter]
    | loop test body => exact ih before
    | funDec f body => exact ih before
    | _ => rfl
  | nil => rfl
  | cons s ss hs ih => rw [renamedAll, letsAll, letsAll, hs, ih, numberAfter_append]

end Stmt

namespace Program

theorem lets_renamed (p : Program) : p.renamed.lets = numberAfter [] p.lets :=
  Stmt.letsAll_renamedAll [] p.statements

/-- The names of functions and parameters, which a script takes over as they are. -/
def headNames (p : Program) : List String :=
  p.functions.map Signature.name ++ p.params.map Variable.name

theorem headNames_renamed (p : Program) : p.renamed.headNames = p.headNames := by
  rw [headNames, headNames, params, params, functions_renamed]

/-- The names that a script gives to its variables are all different. They differ from those of its
functions and parameters exactly if none of these is written as a name that is declared, with a
number up to how often it is. -/
theorem lets_disjoint_headNames_iff (p : Program) :
    p.script = p.renamed.plain ∧ p.renamed.lets.Nodup ∧
      (p.renamed.lets.Disjoint p.renamed.headNames ↔
        ∀ x k, 0 < k → k ≤ p.lets.count x → x ++ "_" ++ toString k ∉ p.headNames) := by
  rw [lets_renamed, headNames_renamed]
  refine ⟨p.script_eq_plain_renamed, nodup_numberAfter _ _, ?_⟩
  constructor
  · intro h x k hpos hle hmem
    apply h (mem_numberAfter.2 ⟨x, k, rfl, ?_, ?_⟩) hmem
    · exact hpos
    · simpa using hle
  · intro h y hy hmem
    obtain ⟨x, k, rfl, hlt, hle⟩ := mem_numberAfter.1 hy
    exact h x k hlt (by simpa using hle) hmem

/-- A function has the name that the script gives to a variable. -/
def numberedFunctionSource : String := "let x = 1; fun x_1(): (print(1);)"

theorem lets_meet_headNames_numberedFunctionSource :
    ∃ p : Program, p.ReadFrom numberedFunctionSource ∧
      p.script = "let x_1 = 1;\nfunction x_1() \x7b\n  console.log(1);\n\x7d" ∧
      p.renamed.lets = ["x_1"] ∧ p.renamed.headNames = ["x_1"] := by
  exact exists_readFrom _ (P := fun p => p.script = _ ∧ p.renamed.lets = ["x_1"] ∧
    p.renamed.headNames = ["x_1"]) (by decide +kernel)

end Program

end Scriptlet
