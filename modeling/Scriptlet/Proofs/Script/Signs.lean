import Scriptlet.Proofs.Folding.Normal
import Scriptlet.Proofs.Program.Names
import Scriptlet.Proofs.Script.Renamed

/-!
Minus signs in a script. Two of them stand side by side outside of strings only where a negation is
written right before a text that begins with a sign. An operation after a negation is written in
parentheses and another negation after a blank; a negative number is written as it stands, but
folding leaves no negation of a number, with one exception: the least integer has no opposite.
-/

namespace Scriptlet

open Outcome

/-! ## Texts with strings in them -/

/-- The text without what is in its strings, from inside a string or from outside. A string goes from
a quote to the next one that is not escaped. -/
def outsideFrom : Bool → List Char → List Char
  | _, [] => []
  | false, c :: cs => c :: outsideFrom (c == '"') cs
  | true, '"' :: cs => '"' :: outsideFrom false cs
  | true, '\\' :: _ :: cs => outsideFrom true cs
  | true, _ :: cs => outsideFrom true cs

/-- Two minus signs stand side by side, outside of strings. -/
def HasDecrement (text : List Char) : Prop := ['-', '-'] <:+: outsideFrom false text

instance (text : List Char) : Decidable (HasDecrement text) :=
  inferInstanceAs (Decidable (_ <:+: _))

/-- The text has no open string and does not end with a minus sign, and two minus signs stand side by
side in it exactly if `P` holds. -/
structure Marks (text : List Char) (P : Prop) : Prop where
  closed : ∀ rest, outsideFrom false (text ++ rest) = outsideFrom false text ++ outsideFrom false rest
  last : (outsideFrom false text).getLast? ≠ some '-'
  hasDecrement : HasDecrement text ↔ P

theorem pair_infix_append {α : Type} {a b : α} {xs ys : List α} : [a, b] <:+: xs ++ ys ↔
    [a, b] <:+: xs ∨ [a, b] <:+: ys ∨ xs.getLast? = some a ∧ ys.head? = some b := by
  induction xs with
  | nil => simp
  | cons x xs ih =>
    rw [List.cons_append, List.infix_cons_iff, ih, List.infix_cons_iff]
    cases xs with
    | nil => cases ys <;> simp [List.cons_prefix_cons, or_comm, eq_comm (a := a), eq_comm (a := b)]
    | cons x' xs => simp [List.cons_prefix_cons, or_assoc]

namespace Marks

variable {text text' : List Char} {P Q : Prop}

theorem congr (h : Marks text P) (hPQ : P ↔ Q) : Marks text Q :=
  ⟨h.closed, h.last, h.hasDecrement.trans hPQ⟩

/-- Where two texts meet, no two minus signs do, as the first one does not end with any. -/
theorem append (h : Marks text P) (h' : Marks text' Q) : Marks (text ++ text') (P ∨ Q) := by
  have houtside := h.closed text'
  refine ⟨fun rest => ?_, ?_, ?_⟩
  · rw [List.append_assoc, h.closed, h'.closed, houtside, List.append_assoc]
  · rw [houtside, List.getLast?_append]
    intro hlast
    rcases Option.or_eq_some_iff.1 hlast with hlast | ⟨-, hlast⟩
    · exact h'.last hlast
    · exact h.last hlast
  · rw [HasDecrement, houtside, pair_infix_append, ← h.hasDecrement, ← h'.hasDecrement]
    simp [h.last, HasDecrement]

end Marks

theorem outsideFrom_append {text : List Char} (h : '"' ∉ text) (rest : List Char) :
    outsideFrom false (text ++ rest) = text ++ outsideFrom false rest := by
  induction text with
  | nil => rfl
  | cons c cs ih =>
    obtain ⟨hc, hcs⟩ := not_or.1 (mt List.mem_cons.2 h)
    rw [List.cons_append, outsideFrom, beq_eq_false_iff_ne.2 (Ne.symm hc), ih hcs, List.cons_append]

theorem outsideFrom_eq_self {text : List Char} (h : '"' ∉ text) : outsideFrom false text = text := by
  have happend := outsideFrom_append h []
  rwa [List.append_nil, outsideFrom, List.append_nil] at happend

namespace Marks

variable {text : List Char} {P : Prop}

/-- A text without quotes is all outside of strings. -/
theorem of_no_quote (hquote : '"' ∉ text) (hlast : text.getLast? ≠ some '-') :
    Marks text (['-', '-'] <:+: text) := by
  refine ⟨fun rest => ?_, ?_, ?_⟩
  · rw [outsideFrom_append hquote, outsideFrom_eq_self hquote]
  · rwa [outsideFrom_eq_self hquote]
  · rw [HasDecrement, outsideFrom_eq_self hquote]

/-- A text with neither quotes nor signs. -/
theorem of_no_sign (h : ∀ c ∈ text, c ≠ '"' ∧ c ≠ '-') : Marks text False := by
  refine (of_no_quote (fun hquote => (h _ hquote).1 rfl) fun hlast => ?_).congr ?_
  · exact (h _ (List.mem_of_getLast? hlast)).2 rfl
  · refine iff_false_intro fun hpair => ?_
    exact (h '-' (hpair.subset (List.mem_cons_self ..))).2 rfl

theorem of_all (h : text.all (fun c => c ≠ '"' && c ≠ '-') = true) : Marks text False :=
  of_no_sign (by simpa using h)

theorem plain (text : String) (h : text.toList.all (fun c => c ≠ '"' && c ≠ '-') = true) :
    Marks text.toList False :=
  of_all h

theorem nil : Marks [] False := of_no_sign fun _ hc => absurd hc List.not_mem_nil

/-- A sign in front of a text. -/
theorem minus {c : Char} (h : Marks (c :: text) P) : Marks ('-' :: c :: text) (c = '-' ∨ P) := by
  have hminus (cs : List Char) : outsideFrom false ('-' :: cs) = '-' :: outsideFrom false cs := by
    rw [outsideFrom]
    rfl
  have hcons : outsideFrom false (c :: text) = c :: outsideFrom (c == '"') text := by rw [outsideFrom]
  refine ⟨fun rest => ?_, ?_, ?_⟩
  · rw [List.cons_append, hminus, h.closed, hminus, List.cons_append]
  · have hlast := h.last
    rw [hminus, hcons, List.getLast?_cons_cons]
    rwa [hcons] at hlast
  · rw [HasDecrement, hminus, List.infix_cons_iff, ← HasDecrement, h.hasDecrement, hcons]
    simp [List.cons_prefix_cons, eq_comm]

theorem minus_of_ne {c : Char} (h : Marks (c :: text) P) (hc : c ≠ '-') :
    Marks ('-' :: c :: text) P :=
  h.minus.congr (or_iff_right hc)

end Marks

/-! ## Words and numbers -/

theorem Pattern.ne_of_isWordPart {c : Char} (h : isWordPart c = true) : c ≠ '"' ∧ c ≠ '-' := by
  refine ⟨?_, ?_⟩ <;>
  · intro hc
    rw [hc] at h
    exact absurd h (by decide)

theorem IsWord.marks {name : String} (h : IsWord name) : Marks name.toList False :=
  .of_no_sign fun c hc => Pattern.ne_of_isWordPart (h.parts c hc)

theorem isWordPart_of_isDigit {c : Char} (h : c.isDigit = true) : Pattern.isWordPart c = true := by
  rw [Pattern.isWordPart, Char.isAlphanum, h]
  simp

theorem marks_of_isDigit {ds : List Char} (h : ∀ c ∈ ds, c.isDigit = true) : Marks ds False :=
  .of_no_sign fun c hc => Pattern.ne_of_isWordPart (isWordPart_of_isDigit (h c hc))

theorem exists_toDigits (n : Nat) :
    ∃ c cs, Nat.toDigits 10 n = c :: cs ∧ ∀ x ∈ c :: cs, x.isDigit = true := by
  obtain ⟨c, cs, hdigits⟩ := List.exists_cons_of_ne_nil (Nat.toDigits_ne_nil (n := n) (b := 10))
  refine ⟨c, cs, hdigits, fun x hx => ?_⟩
  rw [← hdigits] at hx
  exact Nat.isDigit_of_mem_toDigits (by decide) (by decide) hx

/-- A sign in front of digits. -/
theorem marks_signed {c : Char} {cs : List Char} (h : ∀ x ∈ c :: cs, x.isDigit = true) :
    Marks ('-' :: c :: cs) False := by
  have hc := isWordPart_of_isDigit (h c (List.mem_cons_self ..))
  exact (marks_of_isDigit h).minus_of_ne (Pattern.ne_of_isWordPart hc).2

namespace Layout

theorem mem_plain {d : Decimal} {c : Char} (h : c ∈ Layout.script.plain d) :
    c ∈ d.digits ∨ c = '0' ∨ c = '.' := by
  rw [plain] at h
  split at h
  · rcases List.mem_append.1 h with h | h
    · rcases List.mem_append.1 h with h | h
      · exact .inl h
      · exact .inr (.inl (List.eq_of_mem_replicate h))
    · cases h
  · split at h
    · rcases List.mem_append.1 h with h | h
      · exact .inl (List.mem_of_mem_take h)
      · rcases List.mem_cons.1 h with h | h
        · exact .inr (.inr h)
        · exact .inl (List.mem_of_mem_drop h)
    · rcases List.mem_append.1 h with h | h
      · rcases List.mem_cons.1 h with h | h
        · exact .inr (.inl h)
        · rcases List.mem_cons.1 h with h | h
          · exact .inr (.inr h)
          · exact .inr (.inl (List.eq_of_mem_replicate h))
      · exact .inl h

theorem marks_plain (d : Decimal) : Marks (Layout.script.plain d) False := by
  refine .of_no_sign fun c hc => ?_
  rcases mem_plain hc with hc | rfl | rfl
  · have hdigit := Nat.isDigit_of_mem_toDigits (by decide) (by decide) hc
    exact Pattern.ne_of_isWordPart (isWordPart_of_isDigit hdigit)
  · decide
  · decide

/-- The sign of a power of ten stands between the mark `e` and a digit. -/
theorem marks_scientific (d : Decimal) : Marks (Layout.script.scientific d) False := by
  have hdigit : ∀ c ∈ d.digits, c.isDigit = true :=
    fun c hc => Nat.isDigit_of_mem_toDigits (by decide) (by decide) hc
  obtain ⟨c, cs, hpower, hcs⟩ := exists_toDigits d.exponent.natAbs
  have hsign : Marks ((if 0 ≤ d.exponent then Layout.script.powerSign else ['-']) ++ c :: cs)
      False := by
    split
    · exact ((Marks.of_all (by decide)).append (marks_of_isDigit hcs)).congr or_self_iff
    · exact marks_signed hcs
  have hmark : Marks ['e'] False := .of_all (by decide)
  rw [scientific, hpower, List.append_assoc]
  refine (Marks.append (.append (P := False) (Q := False) ?_ ?_) (hmark.append hsign)).congr (by simp)
  · exact marks_of_isDigit fun c hc => hdigit c (List.mem_of_mem_take hc)
  · split
    · exact .nil
    · refine ((Marks.plain "." rfl).append (Q := False) ?_).congr (by simp)
      exact marks_of_isDigit fun c hc => hdigit c (List.mem_of_mem_drop hc)

theorem exists_positive (d : Decimal) :
    ∃ c cs, Layout.script.positive d = c :: cs ∧ c.isDigit = true := by
  obtain ⟨c, cs, hdigits, hdigit⟩ := exists_toDigits d.coefficient
  have hc := hdigit c (List.mem_cons_self ..)
  rw [positive]
  split
  · rw [plain, Decimal.digits, hdigits]
    split
    · exact ⟨c, _, rfl, hc⟩
    · split
      · next hpos =>
        obtain ⟨k, hk⟩ : ∃ k, d.point.toNat = k + 1 := ⟨d.point.toNat - 1, by omega⟩
        rw [hk]
        exact ⟨c, _, rfl, hc⟩
      · exact ⟨'0', _, rfl, rfl⟩
  · rw [scientific, Decimal.digits, hdigits]
    exact ⟨c, _, rfl, hc⟩

theorem marks_positive (d : Decimal) : Marks (Layout.script.positive d) False := by
  rw [positive]
  split
  · exact marks_plain d
  · exact marks_scientific d

theorem marks_text (x : Reading) : Marks (Layout.script.text x) False := by
  cases x with
  | nan => exact .of_all (by decide)
  | infinite negative =>
    have hinfinity : Marks Layout.script.infinity False := .of_all (by decide)
    cases negative with
    | false => exact hinfinity
    | true => exact hinfinity.minus_of_ne (by decide)
  | zero negative => cases negative <;> exact .of_all (by decide)
  | finite negative b =>
    obtain ⟨c, cs, htext, hc⟩ := exists_positive b.shortest
    have hmarks := marks_positive b.shortest
    rw [text, signed]
    split
    · rw [htext] at hmarks ⊢
      exact hmarks.minus_of_ne (Pattern.ne_of_isWordPart (isWordPart_of_isDigit hc)).2
    · exact hmarks

end Layout

/-! ## Strings -/

theorem outsideFrom_cons {c : Char} (hquote : c ≠ '"') (hbackslash : c ≠ '\\') (rest : List Char) :
    outsideFrom true (c :: rest) = outsideFrom true rest := by
  rw [outsideFrom]
  · exact hquote
  · intro d ds h
    exact fun _ => hbackslash h

theorem digitChar_ne {n : Nat} (h : n < 16) :
    Nat.digitChar n ≠ '"' ∧ Nat.digitChar n ≠ '\\' := by
  revert n
  decide

/-- An escape, or a character that needs none, leaves a string open. -/
theorem outsideFrom_scriptChar (c : Char) (rest : List Char) :
    outsideFrom true (scriptChar c ++ rest) = outsideFrom true rest := by
  unfold scriptChar
  split
  all_goals try rfl
  next hquote hbackslash _ _ _ _ _ =>
  split
  · next hcontrol =>
    obtain ⟨hquote, hbackslash⟩ := digitChar_ne (n := c.toNat / 16) (by omega)
    obtain ⟨hquote', hbackslash'⟩ := digitChar_ne (n := c.toNat % 16) (by omega)
    show outsideFrom true ('0' :: '0' :: _ :: _ :: rest) = _
    rw [outsideFrom_cons (by decide) (by decide), outsideFrom_cons (by decide) (by decide),
      outsideFrom_cons hquote hbackslash, outsideFrom_cons hquote' hbackslash']
  · exact outsideFrom_cons hquote hbackslash rest

theorem marks_scriptString (s : String) : Marks (scriptString s).toList False := by
  have hinside (cs rest : List Char) :
      outsideFrom true (cs.flatMap scriptChar ++ '"' :: rest) = '"' :: outsideFrom false rest := by
    induction cs with
    | nil => rw [List.flatMap_nil, List.nil_append, outsideFrom]
    | cons c cs ih => rw [List.flatMap_cons, List.append_assoc, outsideFrom_scriptChar, ih]
  have houtside (rest : List Char) : outsideFrom false ((scriptString s).toList ++ rest) =
      '"' :: '"' :: outsideFrom false rest := by
    rw [scriptString, String.toList_ofList, List.cons_append, List.cons_append, outsideFrom,
      List.append_assoc]
    exact congrArg _ (hinside s.toList rest)
  have hself : outsideFrom false (scriptString s).toList = ['"', '"'] := by
    have h := houtside []
    rwa [List.append_nil, outsideFrom] at h
  refine ⟨fun rest => ?_, ?_, ?_⟩
  · rw [houtside, hself]
    rfl
  · rw [hself]
    decide
  · rw [HasDecrement, hself]
    decide

/-! ## Literals -/

namespace Literal

theorem toList_negSucc (m : Nat) :
    (toString (Int.negSucc m)).toList = '-' :: Nat.toDigits 10 (m + 1) := by
  show ("-" ++ Nat.repr (m + 1)).toList = _
  rw [String.toList_append, Nat.toList_repr]
  rfl

theorem marks_toString (n : Int) : Marks (toString n).toList False := by
  cases n with
  | ofNat m =>
    obtain ⟨c, cs, hdigits, hcs⟩ := exists_toDigits m
    have htext : (toString (Int.ofNat m)).toList = c :: cs := Nat.toList_repr.trans hdigits
    rw [htext]
    exact marks_of_isDigit hcs
  | negSucc m =>
    obtain ⟨c, cs, hdigits, hcs⟩ := exists_toDigits (m + 1)
    rw [toList_negSucc, hdigits]
    exact marks_signed hcs

theorem marks_script (a : Literal) : Marks a.script.toList False := by
  cases a with
  | number value =>
    rw [script, scriptNumber, Layout.ofFloat, String.toList_ofList]
    exact Layout.marks_text _
  | bigInt value =>
    have hmark : Marks "n".toList False := .of_all (by decide)
    rw [script, String.toList_append]
    exact ((marks_toString value.val).append hmark).congr or_self_iff
  | str value => exact marks_scriptString value
  | bool value => cases value <;> exact .of_all (by decide)
  | null => exact .of_all (by decide)
  | undefined => exact .of_all (by decide)

/-- Only numbers have signs. -/
theorem exists_script {a : Literal} (h : a.isNumeric = false) :
    ∃ c cs, a.script.toList = c :: cs ∧ c ≠ '-' := by
  cases a with
  | number | bigInt => cases h
  | str value =>
    rw [script, scriptString, String.toList_ofList]
    exact ⟨'"', _, rfl, by decide⟩
  | bool value => cases value <;> exact ⟨_, _, rfl, by decide⟩
  | null | undefined => exact ⟨_, _, rfl, by decide⟩

/-- A negative integer begins with a sign. -/
theorem marks_negated {n : Int128} (h : n.val < 0) :
    Marks ('-' :: (bigInt n).script.toList) True := by
  obtain ⟨m, hm⟩ := Int.eq_negSucc_of_lt_zero h
  have htext : ∃ cs, (bigInt n).script.toList = '-' :: cs := by
    rw [script, String.toList_append]
    show ∃ cs, (toString n.val).toList ++ _ = _
    rw [hm, toList_negSucc]
    exact ⟨_, rfl⟩
  obtain ⟨cs, hcs⟩ := htext
  have hmarks := marks_script (.bigInt n)
  rw [hcs] at hmarks ⊢
  exact hmarks.minus.congr (by simp)

end Literal

/-! ## Expressions -/

theorem BinaryOp.HasTypes.left_of_array {op : BinaryOp} {l r t u : Ty} (h : op.HasTypes l r t)
    (ht : t = .array u) : l = .array u := by
  cases h with
  | relational => cases ht
  | additive => exact ht
  | numeric => cases ht

namespace Expr

/-- The negation of the least integer. -/
def NegatesLeast : Expr → Prop
  | unary .negate (literal (.bigInt n)) _ => n.val = -2 ^ 127
  | _ => False

/-- One of the expressions is that. -/
def AnyNegatesLeast (es : List Expr) : Prop := ∃ e ∈ es, e.NegatesLeast

theorem anyNegatesLeast_cons {e : Expr} {es : List Expr} :
    AnyNegatesLeast (e :: es) ↔ e.NegatesLeast ∨ AnyNegatesLeast es := by
  simp [AnyNegatesLeast]

theorem anyNegatesLeast_append {es es' : List Expr} :
    AnyNegatesLeast (es ++ es') ↔ AnyNegatesLeast es ∨ AnyNegatesLeast es' := by
  simp [AnyNegatesLeast, or_and_right, exists_or]

/-- The script begins with a name or with the bracket of a list. -/
def IsUnsigned : Expr → Prop
  | var _ | array .. | call .. => True
  | binary _ left _ _ => left.IsUnsigned
  | subscript base _ _ => base.IsUnsigned
  | literal _ | unary .. => False

/-- Lists have no sign. -/
theorem WellTyped.isUnsigned {e : Expr} (h : e.WellTyped Φ Γ) {t : Ty} (ht : e.ty = .array t) :
    e.IsUnsigned := by
  induction h generalizing t with
  | @literal a => cases a <;> cases ht
  | var => trivial
  | array => trivial
  | call => trivial
  | binary hl hr hop ihl ihr => exact ihl (hop.left_of_array ht)
  | coalesce hl hr hty ihl ihr => exact ihl ht
  | @unary e op => cases op <;> cases ht
  | subscript hb hi hbase hindex ihb ihi => exact ihb hbase

/-- What is asked of an expression for its script. Of the expressions inside, each answers for
itself. -/
structure Writable (e : Expr) : Prop where
  reduced : ¬e.Redex
  var : ∀ v, e = .var v → IsWord v.name
  call : ∀ name args t, e = .call name args t → IsWord name
  base : ∀ b i t, e = .subscript b i t → b.IsUnsigned

theorem WellTyped.writable {e : Expr} (h : e.WellTyped Φ Γ) (hredex : ¬e.Redex)
    (hΦ : ∀ f ∈ Φ, IsWord f.name) (hΓ : ∀ v ∈ Γ, IsWord v.name) : e.Writable := by
  refine ⟨hredex, ?_, ?_, ?_⟩
  · rintro v rfl
    cases h with
    | var hv => exact hΓ v (List.mem_of_find?_eq_some hv)
  · rintro name args t rfl
    cases h with
    | call hf => exact hΦ _ hf
  · rintro b i t rfl
    cases h with
    | subscript hb _ hbase => exact hb.isUnsigned hbase

end Expr

theorem IsWord.exists_cons {name : String} (h : IsWord name) :
    ∃ c cs, name.toList = c :: cs ∧ c ≠ '-' := by
  obtain ⟨c, cs, hcs⟩ := List.exists_cons_of_ne_nil h.ne_nil
  exact ⟨c, cs, hcs, (Pattern.ne_of_isWordPart (h.parts c (by simp [hcs]))).2⟩

theorem IsWord.numbered {name : String} (h : IsWord name) (n : Nat) :
    IsWord (name ++ "_" ++ toString n) := by
  refine ⟨by simp, fun c hc => ?_⟩
  simp only [String.toList_append, List.mem_append] at hc
  rcases hc with (hc | hc) | hc
  · exact h.parts c hc
  · obtain rfl : c = '_' := by simpa using hc
    rfl
  · rw [show (toString n).toList = _ from Nat.toList_repr] at hc
    exact isWordPart_of_isDigit (Nat.isDigit_of_mem_toDigits (by decide) (by decide) hc)

/-- A word stands for a word, whatever has been declared. -/
theorem IsWord.resolve {name : String} (h : IsWord name) {r : Renaming} {before : List String}
    (hr : r.Records before) : IsWord (r.resolve name) := by
  rw [hr.resolve, nameAfter]
  split
  · exact h
  · exact h.numbered _

/-- Texts that are separate from each other. -/
structure MarksAll (texts : List String) (P : Prop) : Prop where
  each : ∀ text ∈ texts, Marks text.toList (HasDecrement text.toList)
  hasDecrement : (∃ text ∈ texts, HasDecrement text.toList) ↔ P

namespace MarksAll

variable {text : String} {texts texts' : List String} {P Q : Prop}

theorem congr (h : MarksAll texts P) (hPQ : P ↔ Q) : MarksAll texts Q :=
  ⟨h.each, h.hasDecrement.trans hPQ⟩

theorem nil : MarksAll [] False := ⟨by simp, by simp⟩

theorem singleton (h : Marks text.toList P) : MarksAll [text] P :=
  ⟨by simpa using h.congr h.hasDecrement.symm, by simpa using h.hasDecrement⟩

theorem append (h : MarksAll texts P) (h' : MarksAll texts' Q) :
    MarksAll (texts ++ texts') (P ∨ Q) := by
  refine ⟨List.forall_mem_append.2 ⟨h.each, h'.each⟩, ?_⟩
  rw [← h.hasDecrement, ← h'.hasDecrement]
  simp [or_and_right, exists_or]

theorem intercalate {separator : String} (hs : Marks separator.toList False)
    (h : MarksAll texts P) : Marks (separator.intercalate texts).toList P := by
  refine Marks.congr ?_ h.hasDecrement
  have heach := h.each
  clear h
  rw [String.toList_intercalate]
  induction texts with
  | nil => exact Marks.nil.congr (by simp)
  | cons text texts ih =>
    obtain ⟨htext, htexts⟩ := List.forall_mem_cons.1 heach
    cases texts with
    | nil => simpa using htext
    | cons text' texts =>
      have hall := htext.append (hs.append (ih htexts))
      simpa [List.intercalate_cons_cons] using hall

end MarksAll

namespace Expr

variable {e : Expr} {es : List Expr} {r : Renaming} {before : List String}

theorem exists_script (hr : r.Records before) (h : ∀ x ∈ e.subexprs, x.Writable) (he : e.IsUnsigned) :
    ∃ c cs, (e.script r).toList = c :: cs ∧ c ≠ '-' := by
  induction e using Expr.induction with
  | literal value => exact he.elim
  | unary op operand t ih => exact he.elim
  | var v =>
    have hv := (h (.var v) (by simp [subexprs])).var v rfl
    exact (hv.resolve hr).exists_cons
  | call name args t ih =>
    have hname := (h (.call name args t) (by simp [subexprs])).call name args t rfl
    obtain ⟨c, cs, hcs, hc⟩ := hname.exists_cons
    rw [script, callScript]
    simp only [String.toList_append, hcs]
    exact ⟨c, _, rfl, hc⟩
  | array elements t ih =>
    rw [script]
    simp only [String.toList_append]
    exact ⟨'[', _, rfl, by decide⟩
  | binary op left right t ihl ihr =>
    obtain ⟨c, cs, hcs, hc⟩ := ihl (fun x hx => h x (by simp [subexprs, hx])) he
    rw [script]
    simp only [String.toList_append, hcs]
    exact ⟨c, _, rfl, hc⟩
  | subscript base index t ihb ihi =>
    obtain ⟨c, cs, hcs, hc⟩ := ihb (fun x hx => h x (by simp [subexprs, hx])) he
    rw [script]
    simp only [String.toList_append, hcs]
    exact ⟨c, _, rfl, hc⟩

/-- A number whose negation is left after folding is the least integer. -/
theorem eq_least_of_not_redex {a : Literal} {t : Ty} (h : ¬(unary .negate (literal a) t).Redex)
    (ha : a.isNumeric = true) : ∃ n, a = .bigInt n ∧ n.val = -2 ^ 127 := by
  rw [redex_negate_iff] at h
  cases a with
  | number x => exact absurd ⟨_, rfl, Literal.isSome_negate?_iff.2 (.inl ⟨x, rfl⟩)⟩ h
  | bigInt n =>
    refine ⟨n, rfl, Decidable.byContradiction fun hn => h ?_⟩
    exact ⟨_, rfl, Literal.isSome_negate?_iff.2 (.inr ⟨n, rfl, hn⟩)⟩
  | _ => cases ha

/-- A negation is written apart from the sign of its operand, if that is not the least integer. -/
theorem marks_negation (hr : r.Records before) {operand : Expr} {t : Ty}
    (h : ∀ x ∈ (unary .negate operand t).subexprs, x.Writable)
    (ih : Marks (operand.script r).toList (AnyNegatesLeast operand.subexprs)) :
    Marks (negation operand (operand.script r)).toList
      ((unary .negate operand t).NegatesLeast ∨ AnyNegatesLeast operand.subexprs) := by
  obtain ⟨hself, hinside⟩ := List.forall_mem_cons.1 h
  have hunsigned (hoperand : operand.IsUnsigned) :
      Marks ("-" ++ operand.script r).toList (AnyNegatesLeast operand.subexprs) := by
    obtain ⟨c, cs, hcs, hc⟩ := exists_script hr hinside hoperand
    rw [String.toList_append]
    rw [hcs] at ih ⊢
    exact ih.minus_of_ne hc
  cases operand with
  | literal a =>
    show Marks ("-" ++ a.script).toList _
    rw [String.toList_append]
    by_cases hnumeric : a.isNumeric = true
    · obtain ⟨n, rfl, hn⟩ := eq_least_of_not_redex hself.reduced hnumeric
      exact (Literal.marks_negated (by omega)).congr (iff_of_true trivial (Or.inl hn))
    · obtain ⟨c, cs, hcs, hc⟩ := Literal.exists_script (Bool.eq_false_iff.2 hnumeric)
      have hmarks := Literal.marks_script a
      rw [hcs] at hmarks ⊢
      refine (hmarks.minus_of_ne hc).congr (iff_of_false id ?_)
      cases a with
      | number | bigInt => exact absurd rfl hnumeric
      | _ => simp [NegatesLeast, AnyNegatesLeast, subexprs]
  | unary op e t' =>
    have hsign : Marks "- ".toList False :=
      (Marks.of_no_quote (by decide) (by decide)).congr (iff_false_intro (by decide))
    rw [negation, String.toList_append]
    exact hsign.append ih
  | binary op left right t' =>
    have hopen : Marks "-(".toList False :=
      (Marks.of_no_quote (by decide) (by decide)).congr (iff_false_intro (by decide))
    rw [negation, String.toList_append, String.toList_append]
    exact ((hopen.append ih).append (.plain ")" rfl)).congr (or_iff_left id)
  | var v => exact (hunsigned trivial).congr (by simp [NegatesLeast])
  | array elements t' => exact (hunsigned trivial).congr (by simp [NegatesLeast])
  | call name args t' => exact (hunsigned trivial).congr (by simp [NegatesLeast])
  | subscript base index t' =>
    have hbase := (hinside _ (by simp [subexprs])).base base index t' rfl
    exact (hunsigned hbase).congr (by simp [NegatesLeast])

theorem marksAll_scripts {es : List Expr}
    (h : ∀ e ∈ es, Marks (e.script r).toList (AnyNegatesLeast e.subexprs)) :
    MarksAll (scripts r es) (AnyNegatesLeast (subexprsAll es)) := by
  induction es with
  | nil => exact MarksAll.nil.congr (by simp [AnyNegatesLeast, subexprsAll])
  | cons e es ih =>
    obtain ⟨he, hes⟩ := List.forall_mem_cons.1 h
    rw [scripts, subexprsAll]
    exact ((MarksAll.singleton he).append (ih hes)).congr anyNegatesLeast_append.symm

/-- Operators stand between blanks. -/
theorem marks_symbol (op : BinaryOp) : Marks (" " ++ op.symbol ++ " ").toList False := by
  cases op <;> exact (Marks.of_no_quote (by decide) (by decide)).congr (iff_false_intro (by decide))

theorem marks_callScript {name : String} (hname : IsWord name)
    (hargs : MarksAll (scripts r es) (AnyNegatesLeast (subexprsAll es))) :
    Marks (callScript name (scripts r es)).toList (AnyNegatesLeast (subexprsAll es)) := by
  have hlist := hargs.intercalate (.plain ", " rfl)
  rw [callScript]
  simp only [String.toList_append]
  have hcall := (hname.marks.append (.plain "(" rfl)).append hlist
  exact (hcall.append (.plain ")" rfl)).congr (by simp)

theorem marks_script (hr : r.Records before) (e : Expr) (h : ∀ x ∈ e.subexprs, x.Writable) :
    Marks (e.script r).toList (AnyNegatesLeast e.subexprs) := by
  induction e using Expr.induction with
  | literal a => exact a.marks_script.congr (by simp [AnyNegatesLeast, subexprs, NegatesLeast])
  | var v =>
    have hv := (h (.var v) (by simp [subexprs])).var v rfl
    exact (hv.resolve hr).marks.congr (by simp [AnyNegatesLeast, subexprs, NegatesLeast])
  | binary op left right t ihl ihr =>
    obtain ⟨-, h⟩ := List.forall_mem_cons.1 h
    obtain ⟨hleft, hright⟩ := List.forall_mem_append.1 h
    have hscript : (binary op left right t).script r =
        left.script r ++ ((" " ++ op.symbol ++ " ") ++ right.script r) := by
      rw [script]
      simp only [String.append_assoc]
    rw [hscript, String.toList_append, String.toList_append]
    refine ((ihl hleft).append ((marks_symbol op).append (ihr hright))).congr ?_
    simp [subexprs, anyNegatesLeast_cons, anyNegatesLeast_append, NegatesLeast]
  | unary op operand t ih =>
    have hoperand := ih (List.forall_mem_cons.1 h).2
    cases op with
    | negate =>
      rw [script, subexprs, anyNegatesLeast_cons]
      exact marks_negation hr h hoperand
    | not =>
      rw [script, String.toList_append]
      refine ((Marks.plain "!" rfl).append hoperand).congr ?_
      simp [subexprs, anyNegatesLeast_cons, NegatesLeast]
  | array elements t ih =>
    obtain ⟨-, h⟩ := List.forall_mem_cons.1 h
    have hes := marksAll_scripts fun e he => ih e he (forall_mem_subexprsAll.1 h e he)
    rw [script, String.toList_append, String.toList_append]
    have hlist := hes.intercalate (.plain ", " rfl)
    refine (((Marks.plain "[" rfl).append hlist).append (.plain "]" rfl)).congr ?_
    simp [subexprs, anyNegatesLeast_cons, NegatesLeast]
  | subscript base index t ihb ihi =>
    obtain ⟨-, h⟩ := List.forall_mem_cons.1 h
    obtain ⟨hb, hi⟩ := List.forall_mem_append.1 h
    rw [script]
    simp only [String.toList_append]
    refine ((((ihb hb).append (.plain "[" rfl)).append (ihi hi)).append (.plain "]" rfl)).congr ?_
    simp [subexprs, anyNegatesLeast_cons, anyNegatesLeast_append, NegatesLeast]
  | call name args t ih =>
    obtain ⟨hself, h⟩ := List.forall_mem_cons.1 h
    have hargs := marksAll_scripts fun e he => ih e he (forall_mem_subexprsAll.1 h e he)
    rw [script]
    refine (marks_callScript (hself.call name args t rfl) hargs).congr ?_
    simp [subexprs, anyNegatesLeast_cons, NegatesLeast]

end Expr

/-! ## Statements -/

theorem marks_indented {line : String} {P : Prop} (depth : Nat) (h : Marks line.toList P) :
    Marks (indented depth line).toList P := by
  have hblanks : Marks (List.replicate (2 * depth) ' ') False := by
    refine .of_no_sign fun c hc => ?_
    rw [List.eq_of_mem_replicate hc]
    decide
  rw [indented, String.toList_append, String.toList_ofList]
  exact (hblanks.append h).congr (by simp)

namespace Stmt

open Scriptlet.Expr (AnyNegatesLeast anyNegatesLeast_append)

theorem marks_params {vs : List Variable} (h : ∀ v ∈ vs, IsWord v.name) :
    Marks (", ".intercalate (vs.map Variable.name)).toList False := by
  refine MarksAll.intercalate (.plain ", " rfl) ?_
  induction vs with
  | nil => exact .nil
  | cons v vs ih =>
    obtain ⟨hv, hvs⟩ := List.forall_mem_cons.1 h
    exact ((MarksAll.singleton hv.marks).append (ih hvs)).congr or_self_iff

theorem marksAll_line {line : String} {depth : Nat} {P Q : Prop} (h : Marks line.toList P)
    (hPQ : P ↔ Q) : MarksAll [indented depth line] Q :=
  (MarksAll.singleton (marks_indented depth h)).congr hPQ

/-- A head, the lines of a body and a closing brace. -/
theorem marksAll_block {head : String} {lines : List String} {depth : Nat} {P Q : Prop}
    (hhead : Marks head.toList P) (hlines : MarksAll lines Q) :
    MarksAll (indented depth head :: lines ++ [indented depth "\x7d"]) (P ∨ Q) := by
  have hclose := marks_indented depth (.plain "\x7d" rfl)
  have hfirst := MarksAll.singleton (marks_indented depth hhead)
  exact ((hfirst.append hlines).append (.singleton hclose)).congr (or_iff_left id)

/-- Each line of a statement is complete in itself. -/
theorem marksAll_emit {s : Stmt} {depth : Nat} {r : Renaming} {before : List String}
    (hr : r.Records before) (hbody : ∀ depth, MarksAll (emitAll depth r s.contents).lines
      (AnyNegatesLeast (subexprsAll s.contents)))
    (h : ∀ x ∈ s.subexprs, x.Writable) (hn : AllNamed IsWord [s]) :
    MarksAll (s.emit depth r).lines (AnyNegatesLeast s.subexprs) := by
  have hscript : ∀ e ∈ s.exprs, ∀ {r before}, Renaming.Records r before →
      Marks (e.script r).toList (AnyNegatesLeast e.subexprs) :=
    fun e he _ _ hr => e.marks_script hr ((forall_mem_subexprs.1 h).1 e he)
  cases s with
  | print e =>
    have hline : Marks ("console.log(" ++ e.script r ++ ");").toList
        (AnyNegatesLeast e.subexprs) := by
      have he := hscript e (List.mem_cons_self ..) hr
      simp only [String.toList_append]
      exact (((Marks.plain "console.log(" rfl).append he).append (.plain ");" rfl)).congr (by simp)
    exact marksAll_line hline (by simp [subexprs, exprs])
  | varDec v e =>
    have hname : IsWord v.name := hn.lets _ (List.mem_cons_self ..)
    have hgiven : IsWord (r.declare v.name).1 := hname.numbered _
    have hline : Marks ("let " ++ (r.declare v.name).1 ++ " = " ++
        e.script (r.declare v.name).2 ++ ";").toList (AnyNegatesLeast e.subexprs) := by
      have he := hscript e (List.mem_cons_self ..) (hr.declare v.name)
      have hv := (Marks.plain "let " rfl).append hgiven.marks
      simp only [String.toList_append]
      exact (((hv.append (.plain " = " rfl)).append he).append (.plain ";" rfl)).congr (by simp)
    exact marksAll_line hline (by simp [subexprs, exprs])
  | assign target source =>
    have hline : Marks (target.script r ++ " = " ++ source.script r ++ ";").toList
        (AnyNegatesLeast target.subexprs ∨ AnyNegatesLeast source.subexprs) := by
      have ht := hscript target (by simp [exprs]) hr
      have hs := hscript source (by simp [exprs]) hr
      simp only [String.toList_append]
      exact (((ht.append (.plain " = " rfl)).append hs).append (.plain ";" rfl)).congr (by simp)
    exact marksAll_line hline (by simp [subexprs, exprs, anyNegatesLeast_append])
  | result expression =>
    cases expression with
    | none =>
      exact marksAll_line (.plain "return ;" rfl) (by simp [subexprs, exprs, AnyNegatesLeast])
    | some e =>
      have hline : Marks ("return " ++ e.script r ++ ";").toList (AnyNegatesLeast e.subexprs) := by
        have he := hscript e (List.mem_cons_self ..) hr
        simp only [String.toList_append]
        exact (((Marks.plain "return " rfl).append he).append (.plain ";" rfl)).congr (by simp)
      exact marksAll_line hline (by simp [subexprs, exprs])
  | call name args t =>
    have hcall := hscript (.call name args t) (List.mem_cons_self ..) hr
    have hline : Marks (Expr.callScript name (Expr.scripts r args) ++ ";").toList
        (AnyNegatesLeast (Expr.call name args t).subexprs) := by
      rw [Expr.script] at hcall
      rw [String.toList_append]
      exact (hcall.append (.plain ";" rfl)).congr (by simp)
    exact marksAll_line hline (by simp [subexprs, exprs])
  | funDec f body =>
    rw [contents] at hbody
    obtain ⟨hname, hparams⟩ := hn.functions f (by simp [functionsAll, functions])
    have hhead : Marks ("function " ++ f.name ++ "(" ++
        ", ".intercalate (f.params.map Variable.name) ++ ") \x7b").toList False := by
      have hf := ((Marks.plain "function " rfl).append hname.marks).append (.plain "(" rfl)
      simp only [String.toList_append]
      exact ((hf.append (marks_params hparams)).append (.plain ") \x7b" rfl)).congr (by simp)
    rw [emit, subexprs]
    exact (marksAll_block hhead (hbody (depth + 1))).congr (by simp)
  | loop test body =>
    rw [contents] at hbody
    have htest := hscript test (List.mem_cons_self ..) hr
    have hhead : Marks ("while (" ++ test.script r ++ ") \x7b").toList
        (AnyNegatesLeast test.subexprs) := by
      simp only [String.toList_append]
      exact (((Marks.plain "while (" rfl).append htest).append (.plain ") \x7b" rfl)).congr (by simp)
    rw [emit, subexprs, anyNegatesLeast_append]
    exact marksAll_block hhead (hbody (depth + 1))

theorem marksAll_emitAll {ss : List Stmt} (depth : Nat) {r : Renaming} {before : List String}
    (hr : r.Records before) (h : ∀ x ∈ subexprsAll ss, x.Writable) (hn : AllNamed IsWord ss) :
    MarksAll (emitAll depth r ss).lines (AnyNegatesLeast (subexprsAll ss)) := by
  induction ss using Stmt.induction (P := fun s => ∀ depth r before, Renaming.Records r before →
      (∀ x ∈ s.subexprs, x.Writable) → AllNamed IsWord [s] →
        MarksAll (s.emit depth r).lines (AnyNegatesLeast s.subexprs))
    generalizing depth r before with
  | step s ih depth r before hr h hn =>
    have hbody := fun depth => ih depth hr (forall_mem_subexprs.1 h).2 hn.contents
    exact marksAll_emit hr hbody h hn
  | nil => exact MarksAll.nil.congr (by simp [subexprsAll, AnyNegatesLeast])
  | cons s ss hs ih =>
    rw [subexprsAll] at h ⊢
    obtain ⟨hfirst, hrest⟩ := List.forall_mem_append.1 h
    obtain ⟨hname, hnames⟩ := AllNamed.cons_iff.1 hn
    rw [emitAll, anyNegatesLeast_append]
    exact (hs depth r before hr hfirst hname).append
      (ih depth (records_emit hr depth s) hrest hnames)

end Stmt

/-! ## Programs -/

theorem wellTyped_of_typed {source : String} {file : Option String} {p : Program}
    (h : typed source file = .ok p) : p.WellTyped := by
  obtain ⟨tokens, -, h⟩ := exceptBind_eq_ok.1 h
  obtain ⟨tree, -, h⟩ := exceptBind_eq_ok.1 h
  exact wellTyped_of_analyze h

/-- In the script of a source two minus signs stand side by side, outside of strings, exactly if a
negation of the least integer is left after folding. -/
theorem hasDecrement_script_iff {source : String} {file : Option String} {js : String}
    (h : compile source file .js = .ok js) : ∃ p, typed source file = .ok p ∧
      (HasDecrement js.toList ↔ ∃ e ∈ p.fold.subexprs, e.NegatesLeast) := by
  obtain ⟨p, hp, h⟩ := exceptBind_eq_ok.1 h
  obtain rfl := exceptPure_eq_ok.1 h
  have htyped := (wellTyped_of_typed hp).fold.1
  have hnamed : Stmt.AllNamed IsWord p.fold.statements := (allNamed_of_typed hp).fold
  have hwritable : ∀ e ∈ p.fold.subexprs, e.Writable := by
    intro e he
    obtain ⟨Φ, Γ, hwell, hΦ, hΓ⟩ := htyped.mem_subexprs hnamed he
    exact hwell.writable (p.redexFree_fold e he) hΦ hΓ
  have hlines := Stmt.marksAll_emitAll 0 .empty hwritable hnamed
  exact ⟨p, hp, (hlines.intercalate (.plain "\n" rfl)).hasDecrement⟩

/-- Signs before signs, before operations and in strings. -/
def nestedSignsSource : String :=
  "let x = 1n - 3n; print(- -x); print(-(-x - -5n)); print(\"--\"); print(0n - -[x][0n]);"

def nestedSignsScript : String :=
  "let x_1 = -2n;\nconsole.log(- -x_1);\nconsole.log(-(-x_1 - -5n));\nconsole.log(\"--\");\n" ++
    "console.log(- -[x_1][0n]);"

theorem hasDecrement_nestedSignsSource : compile nestedSignsSource none .js = .ok nestedSignsScript ∧
    ¬HasDecrement nestedSignsScript.toList ∧ ∃ p, typed nestedSignsSource none = .ok p ∧
      (HasDecrement nestedSignsScript.toList ↔ ∃ e ∈ p.fold.subexprs, e.NegatesLeast) := by
  have h : compile nestedSignsSource none .js = .ok nestedSignsScript := by decide +kernel
  exact ⟨h, by decide +kernel, hasDecrement_script_iff h⟩

/-- The least integer, which can be computed but not written, and its negation. -/
def negatedLeastSource : String := "print(-(-170141183460469231731687303715884105727n - 1n));"

theorem hasDecrement_negatedLeastSource : compile negatedLeastSource none .js =
      .ok "console.log(--170141183460469231731687303715884105728n);" ∧
    HasDecrement "console.log(--170141183460469231731687303715884105728n);".toList := by
  exact ⟨by decide +kernel, by decide +kernel⟩

end Scriptlet
