import Scriptlet.Proofs.Token.Terminals
import Scriptlet.Script.Emission

/-!
The terminals of a script. An expression over names and literals of the language is written as
pieces that scanning finds again: `Expr.terminals?` lists them, unless an operator has no token.
-/

namespace Scriptlet

/-- A word that is not reserved. -/
def IsName (name : String) : Prop :=
  ∃ c cs, name.toList = c :: cs ∧ Pattern.isWordStart c = true ∧
    (∀ c ∈ cs, Pattern.isWordPart c = true) ∧ TokenKind.ofWord name = .identifier

/-- Literals that the language has: integers that are not negative, truth values, and strings
without controls other than tabs and the ends of lines. -/
def Literal.Plain : Literal → Prop
  | bigInt value => 0 ≤ value.val
  | bool _ => True
  | str value => ∀ c ∈ value.toList, c.toNat < 0x20 → c = '\t' ∨ c = '\n' ∨ c = '\r'
  | _ => False

/-- Expressions over names and literals that the language has. -/
inductive Expr.Plain : Expr → Prop where
  | literal : value.Plain → Plain (.literal value)
  | var : IsName v.name → Plain (.var v)
  | binary : Plain left → Plain right → Plain (.binary op left right t)
  | unary : Plain operand → Plain (.unary op operand t)
  | array : (∀ e ∈ elements, Plain e) → Plain (.array elements t)
  | subscript : Plain base → Plain index → Plain (.subscript base index t)
  | call : IsName name → (∀ e ∈ args, Plain e) → Plain (.call name args t)

/-- The token of an operator. -/
def BinaryOp.kind? : BinaryOp → Option TokenKind
  | equals => some .equals
  | notEquals => some .notEquals
  | less => some .less
  | lessEquals => some .lessEquals
  | greater => some .greater
  | greaterEquals => some .greaterEquals
  | add => some .plus
  | subtract => some .dash
  | multiply => some .star
  | divide => some .slash
  | modulo => some .percent
  | power => some .starStar
  | coalesce => none

def Literal.terminal : Literal → Terminal
  | number value => ⟨.number, scriptNumber value⟩
  | bigInt value => ⟨.number, toString value ++ "n"⟩
  | str value => ⟨.string, value⟩
  | bool true => ⟨.trueWord, "true"⟩
  | bool false => ⟨.falseWord, "false"⟩
  | null => ⟨.identifier, "null"⟩
  | undefined => ⟨.identifier, "undefined"⟩

namespace Terminal

def bracketed (ts : List Terminal) : List Terminal :=
  ⟨.openBracket, "["⟩ :: ts ++ [⟨.closeBracket, "]"⟩]

def parenthesized (ts : List Terminal) : List Terminal :=
  ⟨.openParen, "("⟩ :: ts ++ [⟨.closeParen, ")"⟩]

theorem bracketed_append (ts rest : List Terminal) :
    bracketed ts ++ rest = ⟨.openBracket, "["⟩ :: (ts ++ ⟨.closeBracket, "]"⟩ :: rest) := by
  simp [bracketed]

theorem parenthesized_append (ts rest : List Terminal) :
    parenthesized ts ++ rest = ⟨.openParen, "("⟩ :: (ts ++ ⟨.closeParen, ")"⟩ :: rest) := by
  simp [parenthesized]

/-- With commas between them. -/
def separated (tss : List (List Terminal)) : List Terminal := [⟨.comma, ","⟩].intercalate tss

theorem separated_singleton (ts : List Terminal) : separated [ts] = ts := by
  simp [separated]

theorem separated_cons {tss : List (List Terminal)} (ts : List Terminal) (h : tss ≠ []) :
    separated (ts :: tss) = ts ++ ⟨.comma, ","⟩ :: separated tss := by
  obtain ⟨us, uss, rfl⟩ := List.exists_cons_of_ne_nil h
  simp [separated]

end Terminal

namespace Expr

open Terminal (bracketed parenthesized separated)

/-- The operand of a negation, in parentheses if it is an operation. -/
def negated (operand : Expr) (ts : List Terminal) : List Terminal :=
  match operand with
  | binary .. => parenthesized ts
  | _ => ts

mutual

/-- The terminals that an expression is written with. -/
def terminals? : Expr → Option (List Terminal)
  | literal value => some [value.terminal]
  | var v => some [⟨.identifier, v.name⟩]
  | binary op left right _ => do
    let ls ← left.terminals?
    let kind ← op.kind?
    let rs ← right.terminals?
    return ls ++ ⟨kind, op.symbol⟩ :: rs
  | unary .negate operand _ => do
    let ts ← operand.terminals?
    return ⟨.dash, "-"⟩ :: negated operand ts
  | unary .not operand _ => do return ⟨.bang, "!"⟩ :: (← operand.terminals?)
  | array elements _ => do return bracketed (separated (← terminalLists? elements))
  | subscript base index _ => do
    let bs ← base.terminals?
    let is ← index.terminals?
    return bs ++ bracketed is
  | call name args _ => do
    return ⟨.identifier, name⟩ :: parenthesized (separated (← terminalLists? args))

def terminalLists? : List Expr → Option (List (List Terminal))
  | [] => some []
  | e :: es => do return (← e.terminals?) :: (← terminalLists? es)

end

section

variable (op : BinaryOp) (left right operand base index : Expr) (elements args : List Expr)
  (name : String) (t : Ty)

theorem terminals?_binary : (binary op left right t).terminals? = left.terminals?.bind fun ls =>
    (op.kind?.bind fun kind => right.terminals?.map (⟨kind, op.symbol⟩ :: ·)).map (ls ++ ·) := by
  rw [terminals?]
  cases left.terminals? <;> cases op.kind? <;> cases right.terminals? <;> rfl

theorem terminals?_negate : (unary .negate operand t).terminals? =
    (operand.terminals?.map (negated operand)).map (⟨.dash, "-"⟩ :: ·) := by
  rw [terminals?]
  cases operand.terminals? <;> rfl

theorem terminals?_not :
    (unary .not operand t).terminals? = operand.terminals?.map (⟨.bang, "!"⟩ :: ·) := by
  rw [terminals?]
  cases operand.terminals? <;> rfl

theorem terminals?_array : (array elements t).terminals? =
    ((terminalLists? elements).map separated).map bracketed := by
  rw [terminals?]
  cases terminalLists? elements <;> rfl

theorem terminals?_subscript : (subscript base index t).terminals? =
    base.terminals?.bind fun bs => (index.terminals?.map bracketed).map (bs ++ ·) := by
  rw [terminals?]
  cases base.terminals? <;> cases index.terminals? <;> rfl

theorem terminals?_call : (call name args t).terminals? =
    (((terminalLists? args).map separated).map parenthesized).map (⟨.identifier, name⟩ :: ·) := by
  rw [terminals?]
  cases terminalLists? args <;> rfl

theorem terminalLists?_cons (e : Expr) (es : List Expr) :
    terminalLists? (e :: es) = e.terminals?.bind fun ts => (terminalLists? es).map (ts :: ·) := by
  rw [terminalLists?]
  cases e.terminals? <;> cases terminalLists? es <;> rfl

end

section

variable {op : BinaryOp} {left right operand base index : Expr} {elements args : List Expr}
  {name : String} {t : Ty} {ts : List Terminal}

theorem terminals?_binary_eq_some : (binary op left right t).terminals? = some ts ↔
    ∃ ls kind rs, left.terminals? = some ls ∧ op.kind? = some kind ∧ right.terminals? = some rs ∧
      ts = ls ++ ⟨kind, op.symbol⟩ :: rs := by
  rw [terminals?_binary]
  cases left.terminals? <;> cases op.kind? <;> cases right.terminals? <;> simp [eq_comm]

/-- A negation has its sign in front, and parentheses around what begins with one. -/
theorem terminals?_negate_eq_some : (unary .negate operand t).terminals? = some ts ↔
    ∃ us, operand.terminals? = some us ∧ ts = ⟨.dash, "-"⟩ :: negated operand us := by
  rw [terminals?_negate]
  cases operand.terminals? <;> simp [eq_comm]

theorem terminals?_not_eq_some : (unary .not operand t).terminals? = some ts ↔
    ∃ us, operand.terminals? = some us ∧ ts = ⟨.bang, "!"⟩ :: us := by
  rw [terminals?_not]
  cases operand.terminals? <;> simp [eq_comm]

theorem terminals?_array_eq_some : (array elements t).terminals? = some ts ↔
    ∃ tss, terminalLists? elements = some tss ∧ ts = bracketed (separated tss) := by
  rw [terminals?_array]
  cases terminalLists? elements <;> simp [eq_comm]

theorem terminals?_subscript_eq_some : (subscript base index t).terminals? = some ts ↔
    ∃ bs us, base.terminals? = some bs ∧ index.terminals? = some us ∧ ts = bs ++ bracketed us := by
  rw [terminals?_subscript]
  cases base.terminals? <;> cases index.terminals? <;> simp [eq_comm]

theorem terminals?_call_eq_some : (call name args t).terminals? = some ts ↔
    ∃ tss, terminalLists? args = some tss ∧
      ts = ⟨.identifier, name⟩ :: parenthesized (separated tss) := by
  rw [terminals?_call]
  cases terminalLists? args <;> simp [eq_comm]

theorem terminalLists?_cons_eq_some {e : Expr} {es : List Expr} {tss : List (List Terminal)} :
    terminalLists? (e :: es) = some tss ↔ ∃ ts uss, e.terminals? = some ts ∧
      terminalLists? es = some uss ∧ tss = ts :: uss := by
  rw [terminalLists?_cons]
  cases e.terminals? <;> cases terminalLists? es <;> simp [eq_comm]

end

end Expr

/-! ## Literals and names -/

section

open Pattern

variable {rest : List Char}

/-- The text stands for the character in a string: as an escape, or as the character itself. -/
def StandsFor (text : List Char) (c : Char) : Prop :=
  (∃ d, text = ['\\', d] ∧ d ≠ '\n' ∧ ∀ cs, unescape ('\\' :: d :: cs) = c :: unescape cs) ∨
    text = [c] ∧ c ≠ '"' ∧ c ≠ '\\' ∧ c ≠ '\n'

/-- The characters between the quotes are read back, up to the closing quote. -/
theorem unescape_flatMap {write : Char → List Char} {cs : List Char}
    (h : ∀ c ∈ cs, StandsFor (write c) c) (rest : List Char) :
    unescape (cs.flatMap write) = cs ∧ stringLength? (cs.flatMap write ++ '"' :: rest) =
      some ((cs.flatMap write).length + 1) := by
  induction cs with
  | nil => exact ⟨rfl, rfl⟩
  | cons c cs ih =>
    obtain ⟨hread, hlength⟩ := ih fun c' hc' => h c' (List.mem_cons_of_mem _ hc')
    rcases h c (List.mem_cons_self ..) with ⟨d, hc, hline, hescape⟩ | ⟨hc, hquote, hslash, hline⟩
    · rw [List.flatMap_cons, hc]
      refine ⟨by simp [hescape, hread], ?_⟩
      simp [stringLength?, hline, hlength]
    · rw [List.flatMap_cons, hc, List.singleton_append, List.cons_append]
      constructor
      · rw [unescape, hread]
        simp [hslash]
      · rw [stringLength?, if_neg hline, hlength]
        all_goals simp [hquote, hslash]

/-- A character is written as one that stands for it, unless it is a control character that no
escape is read back from. -/
theorem standsFor_scriptChar {c : Char} (h : c.toNat < 0x20 → c = '\t' ∨ c = '\n' ∨ c = '\r') :
    StandsFor (scriptChar c) c := by
  unfold scriptChar
  split
  · exact .inl ⟨'"', rfl, by decide, fun cs => by rw [unescape]⟩
  · exact .inl ⟨'\\', rfl, by decide, fun cs => by rw [unescape]⟩
  · exact absurd (h (by decide)) (by decide)
  · exact .inl ⟨'t', rfl, by decide, fun cs => by rw [unescape]⟩
  · exact .inl ⟨'n', rfl, by decide, fun cs => by rw [unescape]⟩
  · exact absurd (h (by decide)) (by decide)
  · exact .inl ⟨'r', rfl, by decide, fun cs => by rw [unescape]⟩
  · next hquote hslash _ htab hline _ hreturn =>
    have hprintable : ¬c.toNat < 0x20 := by
      intro hlt
      rcases h hlt with h | h | h
      · exact htab h
      · exact hline h
      · exact hreturn h
    rw [if_neg hprintable]
    exact .inr ⟨rfl, hquote, hslash, hline⟩

theorem Int128.toList_wide {value : Int128} (h : 0 ≤ value.val) :
    ∃ d ds, (toString value ++ "n").toList = d :: ds ++ ['n'] ∧
      ∀ c ∈ d :: ds, c.isDigit = true := by
  obtain ⟨n, hn⟩ := Int.eq_ofNat_of_zero_le h
  obtain ⟨d, ds, hdigits⟩ := List.exists_cons_of_ne_nil (Nat.toDigits_ne_nil (n := n) (b := 10))
  have htext : (toString value).toList = Nat.toDigits 10 n := by
    show (toString value.val).toList = _
    rw [hn]
    exact Nat.toList_repr
  refine ⟨d, ds, ?_, ?_⟩
  · rw [String.toList_append, htext, hdigits]
    rfl
  · intro c hc
    rw [← hdigits] at hc
    exact Nat.isDigit_of_mem_toDigits (by decide) (by decide) hc

end

/-! ## How texts begin -/

section

open Pattern

variable {q : Char → Bool} {text text' rest : List Char} {e : Expr}

/-- The text begins with a character outside of `q`. -/
def Avoids (q : Char → Bool) (text : List Char) : Prop := ∃ c cs, text = c :: cs ∧ q c = false

theorem avoids_cons {c : Char} : Avoids q (c :: rest) ↔ q c = false := by
  simp [Avoids]

theorem Avoids.head (h : Avoids q text) (rest : List Char) :
    ∀ c ∈ (text ++ rest).head?, q c = false := by
  obtain ⟨c, cs, rfl, hc⟩ := h
  simp [hc]

theorem Avoids.append (h : Avoids q text) : Avoids q (text ++ text') := by
  obtain ⟨c, cs, rfl, hc⟩ := h
  exact avoids_cons.2 hc

/-- The text begins with no blank, and with nothing that lengthens a sign. -/
def Opens (text : List Char) : Prop := Avoids Text.isBlank text ∧ Avoids continuesSign text

theorem Opens.append (h : Opens text) : Opens (text ++ text') := ⟨h.1.append, h.2.append⟩

theorem opens_cons {c : Char} (hb : Text.isBlank c = false) (hs : continuesSign c = false) :
    Opens (c :: rest) :=
  ⟨avoids_cons.2 hb, avoids_cons.2 hs⟩

/-- Letters and digits begin a text without being taken for the rest of a sign. -/
theorem opens_of_toNat {c : Char}
    (h : 48 ≤ c.toNat ∧ c.toNat ≤ 57 ∨ 65 ≤ c.toNat ∧ c.toNat ≤ 122) : Opens (c :: rest) := by
  have hsign (d : Char) (hd : d.toNat < 48 ∨ 57 < d.toNat ∧ d.toNat < 65) : (c == d) = false := by
    rw [beq_eq_false_iff_ne]
    intro hcd
    rw [hcd] at h
    omega
  constructor
  · simp only [avoids_cons, Text.isBlank, Bool.or_eq_false_iff, Bool.and_eq_false_imp,
      decide_eq_true_eq, decide_eq_false_iff_not, beq_eq_false_iff_ne]
    omega
  · rw [avoids_cons, continuesSign, hsign '=' (by decide), hsign '>' (by decide),
      hsign '*' (by decide), hsign '/' (by decide)]
    rfl

theorem IsName.opens {name : String} (h : IsName name) : Opens name.toList := by
  obtain ⟨c, cs, hname, hc, -⟩ := h
  rw [hname]
  apply opens_of_toNat
  have := toNat_of_isWordStart hc
  omega

theorem Literal.Plain.opens {value : Literal} (h : value.Plain) : Opens value.script.toList := by
  cases value with
  | bigInt value =>
    obtain ⟨d, ds, htext, hdigits⟩ := Int128.toList_wide h
    rw [Literal.script, htext]
    apply opens_of_toNat
    exact .inl (Char.isDigit_iff_toNat.1 (hdigits d (List.mem_cons_self ..)))
  | bool value => cases value <;> exact opens_cons rfl rfl
  | str value =>
    rw [Literal.script, scriptString, String.toList_ofList]
    exact opens_cons rfl rfl
  | number value => exact h.elim
  | null => exact h.elim
  | undefined => exact h.elim

end

/-! ## Expressions -/

namespace Expr

/-- The characters of the script, where no name has been declared. -/
def text (e : Expr) : List Char := (e.script .empty).toList

/-- The characters of the scripts, with commas between them. -/
def listText (es : List Expr) : List Char := (", ".intercalate (scripts .empty es)).toList

theorem text_binary (op : BinaryOp) (left right : Expr) (t : Ty) :
    (binary op left right t).text =
      left.text ++ ' ' :: (op.symbol.toList ++ ' ' :: right.text) := by
  simp [text, script]

theorem text_not (operand : Expr) (t : Ty) : (unary .not operand t).text = '!' :: operand.text := by
  simp [text, script]

/-- The operand of a negation: apart from another sign, and an operation in parentheses. -/
def negatedText (operand : Expr) : List Char :=
  match operand with
  | unary .. => ' ' :: operand.text
  | binary .. => '(' :: operand.text ++ [')']
  | _ => operand.text

theorem text_negate (operand : Expr) (t : Ty) :
    (unary .negate operand t).text = '-' :: operand.negatedText := by
  cases operand <;> simp [text, negatedText, script, negation]

theorem text_array (elements : List Expr) (t : Ty) :
    (array elements t).text = '[' :: listText elements ++ [']'] := by
  simp [text, listText, script]

theorem text_subscript (base index : Expr) (t : Ty) :
    (subscript base index t).text = base.text ++ ('[' :: index.text ++ [']']) := by
  simp [text, script]

theorem text_call (name : String) (args : List Expr) (t : Ty) :
    (call name args t).text = name.toList ++ ('(' :: listText args ++ [')']) := by
  simp [text, listText, script, callScript]

theorem listText_singleton (e : Expr) : listText [e] = e.text := rfl

theorem listText_cons_cons (e e' : Expr) (es : List Expr) :
    listText (e :: e' :: es) = e.text ++ ',' :: ' ' :: listText (e' :: es) := by
  simp [listText, text, scripts, String.toList_intercalate]

/-- The text of an expression begins with neither a blank nor a character that continues a sign. -/
theorem Plain.opens {e : Expr} (h : e.Plain) : Opens e.text := by
  induction h with
  | literal h => exact h.opens
  | var h => exact h.opens
  | binary _ _ ih _ =>
    rw [text_binary]
    exact ih.append
  | @unary operand op =>
    cases op with
    | negate =>
      rw [text_negate]
      exact opens_cons rfl rfl
    | not =>
      rw [text_not]
      exact opens_cons rfl rfl
  | array =>
    rw [text_array]
    exact opens_cons rfl rfl
  | subscript _ _ ih _ =>
    rw [text_subscript]
    exact ih.append
  | call h =>
    rw [text_call]
    exact h.opens.append

end Expr

section

open Pattern

variable {text text' : List Char} {ts? ts'? : Option (List Terminal)}

/-- Scanning finds the terminals in front of all that lengthens neither a word nor a sign. -/
def Spells (text : List Char) (ts? : Option (List Terminal)) : Prop :=
  ∀ rest, (∀ c ∈ rest.head?, isWordPart c = false) → (∀ c ∈ rest.head?, continuesSign c = false) →
    terminals? (text ++ rest) = ts?.bind fun ts => (terminals? rest).map (ts ++ ·)

theorem Spells.nil : Spells [] (some []) := by
  intro rest _ _
  simp

theorem Spells.name {name : String} (h : IsName name) :
    Spells name.toList (some [⟨.identifier, name⟩]) := by
  obtain ⟨c, cs, hname, hc, hcs, hkind⟩ := h
  intro rest hword _
  rw [terminals?_word name hname hc hcs hword, hkind]
  rfl

theorem Spells.literal {value : Literal} (h : value.Plain) :
    Spells value.script.toList (some [value.terminal]) := by
  intro rest hword _
  cases value with
  | bigInt value =>
    obtain ⟨d, ds, htext, hdigits⟩ := Int128.toList_wide h
    rw [Literal.script, htext, ← List.append_cons, terminals?_wide hdigits, ← htext,
      String.ofList_toList]
    rfl
  | bool value =>
    cases value with
    | true => exact terminals?_word "true" rfl rfl (List.all_eq_true.1 rfl) hword
    | false => exact terminals?_word "false" rfl rfl (List.all_eq_true.1 rfl) hword
  | str value =>
    obtain ⟨hread, hlength⟩ :=
      unescape_flatMap (fun c hc => standsFor_scriptChar (h c hc)) rest
    rw [Literal.script, scriptString, String.toList_ofList, ← List.append_cons,
      terminals?_quoted hlength, hread, String.ofList_toList]
    rfl
  | number value => exact h.elim
  | null => exact h.elim
  | undefined => exact h.elim

/-- What is spelled in two parts is spelled whole, if the second begins with no part of a word or a
sign. -/
theorem Spells.append {c : Char} (h : Spells text ts?) (h' : Spells (c :: text') ts'?)
    (hw : isWordPart c = false) (hs : continuesSign c = false) :
    Spells (text ++ c :: text') (ts?.bind fun ts => ts'?.map (ts ++ ·)) := by
  intro rest hword hsign
  have hnext := h (c :: text' ++ rest) ((avoids_cons.2 hw).head rest) ((avoids_cons.2 hs).head rest)
  rw [List.append_assoc, hnext, h' rest hword hsign]
  cases ts? with
  | none => rfl
  | some ts =>
    cases ts'? with
    | none => rfl
    | some ts' => simp [Function.comp_def]

theorem Spells.blank (h : Spells text ts?) (ho : Avoids Text.isBlank text) :
    Spells (' ' :: text) ts? := by
  intro rest hword hsign
  rw [List.cons_append, terminals?_blank (ho.head rest), h rest hword hsign]

theorem Spells.sign {s : List Char} {k : TokenKind} (h : Spells text ts?)
    (hmem : Pattern.sign s k ∈ table) (ho : Avoids continuesSign text) :
    Spells (s ++ text) (ts?.map (⟨k, String.ofList s⟩ :: ·)) := by
  intro rest hword hsign
  rw [List.append_assoc, terminals?_sign hmem (ho.head rest), h rest hword hsign]
  cases ts? with
  | none => rfl
  | some ts => simp [Function.comp_def]

theorem Spells.single {s : List Char} {k : TokenKind} (hmem : Pattern.sign s k ∈ table) :
    Spells s (some [⟨k, String.ofList s⟩]) := by
  intro rest _ hsign
  rw [terminals?_sign hmem hsign]
  rfl

/-- A text between two brackets, each of which is a sign of its own. -/
theorem Spells.enclosed {o c : Char} {ko kc : TokenKind} (ho : Pattern.sign [o] ko ∈ table)
    (hc : Pattern.sign [c] kc ∈ table) (hw : isWordPart c = false) (hs : continuesSign c = false)
    (h : Spells text ts?) (hopens : Avoids continuesSign (text ++ [c])) :
    Spells (o :: text ++ [c]) (ts?.map fun ts =>
      ⟨ko, String.ofList [o]⟩ :: ts ++ [⟨kc, String.ofList [c]⟩]) := by
  have hclosed := h.append (.single hc) hw hs
  have hall := hclosed.sign ho hopens
  cases ts? with
  | none => exact hall
  | some ts => exact hall

theorem Spells.bracketed (h : Spells text ts?) (ho : Avoids continuesSign (text ++ [']'])) :
    Spells ('[' :: text ++ [']']) (ts?.map Terminal.bracketed) :=
  .enclosed (by decide) (by decide) rfl rfl h ho

theorem Spells.parenthesized (h : Spells text ts?) (ho : Avoids continuesSign (text ++ [')'])) :
    Spells ('(' :: text ++ [')']) (ts?.map Terminal.parenthesized) :=
  .enclosed (by decide) (by decide) rfl rfl h ho

theorem BinaryOp.sign_mem_table {op : BinaryOp} {kind : TokenKind} (h : op.kind? = some kind) :
    Pattern.sign op.symbol.toList kind ∈ table ∧ Avoids Text.isBlank op.symbol.toList := by
  cases op <;> cases h <;> exact ⟨by decide, avoids_cons.2 rfl⟩

/-- The right part of an operation. An operator without a token cannot be scanned. -/
theorem Spells.operator (op : BinaryOp) (h : Spells text ts?) (ho : Opens text) :
    Spells (' ' :: (op.symbol.toList ++ ' ' :: text))
      (op.kind?.bind fun kind => ts?.map (⟨kind, op.symbol⟩ :: ·)) := by
  cases hkind : op.kind? with
  | none =>
    cases op <;> cases hkind
    intro rest _ _
    rw [List.cons_append, terminals?_blank (by simp; decide)]
    exact terminals?_of_first?_eq_none rfl
  | some kind =>
    obtain ⟨hmem, hblank⟩ := op.sign_mem_table hkind
    have hsign := (h.blank ho.1).sign hmem (avoids_cons.2 rfl)
    rw [String.ofList_toList] at hsign
    exact hsign.blank hblank.append

namespace Expr

theorem Plain.opens_listText {es : List Expr} (h : ∀ e ∈ es, e.Plain) (hes : es ≠ []) :
    Opens (listText es) := by
  match es with
  | [] => exact absurd rfl hes
  | [e] => exact (h e (List.mem_cons_self ..)).opens
  | e :: e' :: es =>
    rw [listText_cons_cons]
    exact (h e (List.mem_cons_self ..)).opens.append

theorem Plain.avoids_listText {es : List Expr} {c : Char} (h : ∀ e ∈ es, e.Plain)
    (hc : continuesSign c = false) : Avoids continuesSign (listText es ++ [c]) := by
  cases es with
  | nil => exact avoids_cons.2 hc
  | cons e es => exact (opens_listText h (List.cons_ne_nil e es)).2.append

/-- A list is spelled as its items with commas between them. -/
theorem spells_listText {es : List Expr} (hplain : ∀ e ∈ es, e.Plain)
    (h : ∀ e ∈ es, Spells e.text e.terminals?) :
    Spells (listText es) ((terminalLists? es).map Terminal.separated) := by
  match es with
  | [] => exact .nil
  | [e] =>
    have he := h e (List.mem_cons_self ..)
    rw [listText_singleton, terminalLists?_cons, terminalLists?]
    cases hts : e.terminals? with
    | none => simpa [hts] using he
    | some ts => simpa [hts, Terminal.separated] using he
  | e :: e' :: es =>
    have htail : ∀ x ∈ e' :: es, x.Plain := fun x hx => hplain x (List.mem_cons_of_mem _ hx)
    have hes := spells_listText htail fun x hx => h x (List.mem_cons_of_mem _ hx)
    have hblank := hes.blank (Plain.opens_listText htail (List.cons_ne_nil e' es)).1
    have hcomma := hblank.sign (s := [',']) (k := .comma) (by decide) (avoids_cons.2 rfl)
    have hall := (h e (List.mem_cons_self ..)).append hcomma rfl rfl
    have hterminals : (terminalLists? (e :: e' :: es)).map Terminal.separated =
        e.terminals?.bind fun ts => (((terminalLists? (e' :: es)).map Terminal.separated).map
          (⟨.comma, ","⟩ :: ·)).map (ts ++ ·) := by
      rw [terminalLists?_cons e, terminalLists?_cons e']
      cases e.terminals? <;> cases e'.terminals? <;> cases terminalLists? es <;>
        simp [Terminal.separated]
    rw [listText_cons_cons, hterminals]
    exact hall

/-- What a negation is written in front of. -/
theorem Plain.spells_negatedText {operand : Expr} (h : operand.Plain)
    (ih : Spells operand.text operand.terminals?) :
    Spells operand.negatedText (operand.terminals?.map (negated operand)) ∧
      Avoids continuesSign operand.negatedText := by
  have hid : operand.terminals?.map (fun ts => ts) = operand.terminals? := Option.map_id'
  cases operand with
  | binary => exact ⟨ih.parenthesized h.opens.2.append, avoids_cons.2 rfl⟩
  | unary => exact ⟨hid.symm ▸ ih.blank h.opens.1, avoids_cons.2 rfl⟩
  | literal | var | array | subscript | call => exact ⟨hid.symm ▸ ih, h.opens.2⟩

/-- The script of an expression has the terminals that the expression is written with. -/
theorem Plain.spells {e : Expr} (h : e.Plain) : Spells e.text e.terminals? := by
  induction h with
  | literal h => exact .literal h
  | var h => exact .name h
  | @binary left right op t hl hr ihl ihr =>
    rw [text_binary, terminals?_binary]
    exact ihl.append (ihr.operator op hr.opens) rfl rfl
  | @unary operand op t h ih =>
    cases op with
    | negate =>
      obtain ⟨hoperand, hopens⟩ := h.spells_negatedText ih
      rw [text_negate, terminals?_negate]
      exact hoperand.sign (s := ['-']) (by decide) hopens
    | not =>
      rw [text_not, terminals?_not]
      exact ih.sign (s := ['!']) (by decide) h.opens.2
  | array h ih =>
    rw [text_array, terminals?_array]
    exact (spells_listText h ih).bracketed (avoids_listText h rfl)
  | subscript hb hi ihb ihi =>
    rw [text_subscript, terminals?_subscript]
    exact ihb.append (ihi.bracketed hi.opens.2.append) rfl rfl
  | call hname h ih =>
    rw [text_call, terminals?_call]
    have hargs := (spells_listText h ih).parenthesized (avoids_listText h rfl)
    exact (Spells.name hname).append hargs rfl rfl

/-- The text of an expression is cut into its terminals. -/
theorem Plain.terminals?_text {e : Expr} (h : e.Plain) :
    Scriptlet.terminals? e.text = e.terminals?.map (· ++ [.endOfText]) := by
  have hspells := h.spells [] (by simp) (by simp)
  rw [List.append_nil, terminals?_nil] at hspells
  rw [hspells]
  cases e.terminals? <;> rfl

end Expr

end

end Scriptlet
