import Mathlib.Data.List.Forall2
import Scriptlet.Proofs.Script.Grouping
import Scriptlet.Proofs.Token.Extent

/-!
Every expression can be written. An expression of the language, as it stands in a source, is written
with parentheses around each operation, and the text is read back as the tree of the expression:
the parentheses make a primary expression of every operation, so that no layer of the grammar is
closed to it.
-/

namespace Scriptlet

/-- A text that scanning takes as one number. -/
def IsNumeral (text : String) : Prop :=
  Pattern.first? text.toList = some (.number, text.toList.length)

/-- Expressions as they stand in a source. -/
inductive SourceExpr where
  | name (name : { name : String // IsName name })
  | number (text : { text : String // IsNumeral text })
  | string (value : String)
  | bool (value : Bool)
  /-- The operator `??` stands in scripts only. -/
  | binary (op : { op : BinaryOp // op ≠ .coalesce }) (left right : SourceExpr)
  | unary (op : UnaryOp) (operand : SourceExpr)
  | call (name : { name : String // IsName name }) (args : List SourceExpr)
  | subscript (base index : SourceExpr)
  | array (elements : List SourceExpr)

/-- How a character is written in a string. -/
def quotedChar : Char → List Char
  | '"' => ['\\', '"']
  | '\\' => ['\\', '\\']
  | '\n' => ['\\', 'n']
  | c => [c]

def quoted (value : String) : String :=
  String.ofList ('"' :: value.toList.flatMap quotedChar ++ ['"'])

namespace SourceExpr

mutual

/-- The text of an expression, with every operation in parentheses. As many blanks as `gap` says
stand between the sign of a unary operation and its operand. -/
def written (gap : Nat) : SourceExpr → String
  | name x => x
  | number x => x
  | string value => quoted value
  | bool true => "true"
  | bool false => "false"
  | binary op left right =>
    "(" ++ left.written gap ++ " " ++ op.val.symbol ++ " " ++ right.written gap ++ ")"
  | unary op operand =>
    "(" ++ op.symbol ++ String.ofList (List.replicate gap ' ') ++ operand.written gap ++ ")"
  | call x args => x ++ "(" ++ ", ".intercalate (writtenAll gap args) ++ ")"
  | subscript base index => base.written gap ++ "[" ++ index.written gap ++ "]"
  | array elements => "[" ++ ", ".intercalate (writtenAll gap elements) ++ "]"

def writtenAll (gap : Nat) : List SourceExpr → List String
  | [] => []
  | e :: es => e.written gap :: writtenAll gap es

end

mutual

/-- The tree of an expression, up to spans and the texts of its interior nodes. -/
def shape : SourceExpr → Shape
  | name x => .leaf .id x
  | number x => .leaf .num x
  | string value => .leaf .str value
  | bool true => .leaf .true "true"
  | bool false => .leaf .false "false"
  | binary op left right => .branch .binary [left.shape, .leaf .op op.val.symbol, right.shape]
  | unary op operand => .branch .unary [.leaf .op op.symbol, operand.shape]
  | call x args => .branch .call (.leaf .id x :: shapes args)
  | subscript base index => .branch .subscript [base.shape, index.shape]
  | array elements => .branch .arrayLit (shapes elements)

def shapes : List SourceExpr → List Shape
  | [] => []
  | e :: es => e.shape :: shapes es

end

/-- Induction with the elements of lists as parts. -/
theorem induction {motive : SourceExpr → Prop} (name : ∀ x, motive (.name x))
    (number : ∀ x, motive (.number x)) (string : ∀ value, motive (.string value))
    (bool : ∀ value, motive (.bool value))
    (binary : ∀ op left right, motive left → motive right → motive (.binary op left right))
    (unary : ∀ op operand, motive operand → motive (.unary op operand))
    (call : ∀ x args, (∀ e ∈ args, motive e) → motive (.call x args))
    (subscript : ∀ base index, motive base → motive index → motive (.subscript base index))
    (array : ∀ elements, (∀ e ∈ elements, motive e) → motive (.array elements)) (e : SourceExpr) :
    motive e := by
  refine @SourceExpr.rec motive (fun es => ∀ e ∈ es, motive e) name number string bool binary unary
    call subscript array ?_ ?_ e
  · intro e he
    cases he
  · intro e es he hes e' he'
    rcases List.mem_cons.1 he' with rfl | he'
    · exact he
    · exact hes e' he'

end SourceExpr

/-! ## Numbers before a delimiter -/

/-- The characters that end a name or a number in a written expression. -/
def isDelimiter (c : Char) : Bool :=
  c == ' ' || c == '(' || c == ')' || c == '[' || c == ']' || c == ','

/-- The text is empty or begins with a delimiter. -/
def Delimited (text : List Char) : Prop := ∀ c ∈ text.head?, isDelimiter c = true

theorem delimited_nil : Delimited [] := by
  simp [Delimited]

theorem delimited_cons {c : Char} {cs : List Char} :
    Delimited (c :: cs) ↔ isDelimiter c = true := by
  simp [Delimited]

theorem isDelimiter_cases {c : Char} (h : isDelimiter c = true) :
    c = ' ' ∨ c = '(' ∨ c = ')' ∨ c = '[' ∨ c = ']' ∨ c = ',' := by
  simpa [isDelimiter, or_assoc] using h

/-- A class of characters without the delimiters does not hold the first one of a delimited text. -/
theorem Delimited.head {q : Char → Bool} {rest : List Char} (h : Delimited rest)
    (hq : q ' ' = false ∧ q '(' = false ∧ q ')' = false ∧ q '[' = false ∧ q ']' = false ∧
      q ',' = false) : ∀ c ∈ rest.head?, q c = false := by
  intro c hc
  obtain ⟨h₁, h₂, h₃, h₄, h₅, h₆⟩ := hq
  rcases isDelimiter_cases (h c hc) with rfl | rfl | rfl | rfl | rfl | rfl <;> assumption

namespace Pattern

/-- A length at the start of a text that does not change with what follows a delimiter. -/
def EndsAtDelimiter (f : List Char → Nat) : Prop :=
  ∀ ⦃rest⦄, Delimited rest → ∀ cs, f (cs ++ rest) = f cs

/-- A length that sees no delimiter is not changed by a text behind one. -/
theorem EndsAtDelimiter.of_cons {f : List Char → Nat} (hnil : f [] = 0)
    (hrest : ∀ c cs, isDelimiter c = true → f (c :: cs) = 0)
    (hcons : ∀ c cs rest, Delimited rest → f (c :: cs ++ rest) = f (c :: cs)) :
    EndsAtDelimiter f := by
  intro rest h cs
  cases cs with
  | cons c cs => exact hcons c cs rest h
  | nil =>
    cases rest with
    | nil => rfl
    | cons c rest => rw [List.nil_append, hnil, hrest c rest (delimited_cons.1 h)]

theorem endsAtDelimiter_run : EndsAtDelimiter (run Char.isDigit) := by
  intro rest h cs
  induction cs with
  | nil =>
    have hrun : run Char.isDigit ([] ++ rest) = 0 :=
      run_append (List.forall_mem_nil _) (h.head (by decide))
    exact hrun
  | cons c cs ih => rw [List.cons_append, run_cons, run_cons, ih]

theorem endsAtDelimiter_fractionLength : EndsAtDelimiter fractionLength := by
  apply EndsAtDelimiter.of_cons rfl
  · intro c cs h
    rcases isDelimiter_cases h with rfl | rfl | rfl | rfl | rfl | rfl <;> rfl
  · intro c cs rest h
    by_cases hc : c = '.'
    · rw [hc, List.cons_append, fractionLength, fractionLength, endsAtDelimiter_run h]
    · simp [fractionLength, hc]

theorem endsAtDelimiter_signLength : EndsAtDelimiter signLength := by
  apply EndsAtDelimiter.of_cons rfl
  · intro c cs h
    rcases isDelimiter_cases h with rfl | rfl | rfl | rfl | rfl | rfl <;> rfl
  · intro c cs rest _
    rw [List.cons_append]
    unfold signLength
    split <;> split <;> simp_all

theorem endsAtDelimiter_powerLength : EndsAtDelimiter powerLength := by
  apply EndsAtDelimiter.of_cons rfl
  · intro c cs h
    rcases isDelimiter_cases h with rfl | rfl | rfl | rfl | rfl | rfl <;> rfl
  · intro c cs rest h
    rw [List.cons_append, powerLength, powerLength, endsAtDelimiter_signLength h]
    have hdigits : run Char.isDigit ((cs ++ rest).drop (signLength cs)) =
        run Char.isDigit (cs.drop (signLength cs)) := by
      cases cs with
      | nil => exact endsAtDelimiter_run h []
      | cons d cs =>
        rw [List.drop_append_of_le_length (Nat.le_trans (signLength_le _) (by simp))]
        exact endsAtDelimiter_run h _
    rw [hdigits]

theorem endsAtDelimiter_wideLength : EndsAtDelimiter wideLength := by
  apply EndsAtDelimiter.of_cons rfl
  · intro c cs h
    rcases isDelimiter_cases h with rfl | rfl | rfl | rfl | rfl | rfl <;> rfl
  · intro c cs rest _
    rw [List.cons_append]
    unfold wideLength
    split <;> split <;> simp_all

theorem EndsAtDelimiter.drop {f : List Char → Nat} (hf : EndsAtDelimiter f) {rest : List Char}
    (h : Delimited rest) {cs : List Char} {m : Nat} (hm : m ≤ cs.length) :
    f ((cs ++ rest).drop m) = f (cs.drop m) := by
  rw [List.drop_append_of_le_length hm]
  exact hf h _

/-- A number ends before a delimiter. -/
theorem endsAtDelimiter_numberLength : EndsAtDelimiter numberLength := by
  intro rest h cs
  cases hm : run Char.isDigit cs with
  | zero => rw [numberLength, numberLength, endsAtDelimiter_run h, hm]
  | succ m =>
    have hrun : run Char.isDigit (cs ++ rest) = m + 1 := (endsAtDelimiter_run h cs).trans hm
    have hwhole : m + 1 ≤ cs.length := hm ▸ run_le_length ..
    have hfraction := add_le_length fractionLength_le_length hwhole
    have hpower := add_le_length powerLength_le_length hfraction
    rw [numberLength_of_run hm, numberLength_of_run hrun,
      endsAtDelimiter_fractionLength.drop h hwhole, endsAtDelimiter_powerLength.drop h hfraction,
      endsAtDelimiter_wideLength.drop h hpower]

end Pattern

open Pattern

theorem exists_digit_of_length? {cs : List Char}
    (h : Pattern.number.length? cs = some cs.length) :
    ∃ d ds, cs = d :: ds ∧ d.isDigit = true ∧ numberLength cs = cs.length := by
  rw [length?] at h
  obtain ⟨hlength, hpos⟩ := nonzero?_eq_some_iff.1 h
  cases cs with
  | nil => cases hpos
  | cons d ds =>
    refine ⟨d, ds, rfl, ?_, hlength⟩
    cases hd : d.isDigit with
    | true => rfl
    | false => simp [numberLength, run_cons, hd] at hlength

theorem IsNumeral.exists_digit {text : String} (h : IsNumeral text) :
    ∃ d ds, text.toList = d :: ds ∧ d.isDigit = true ∧
      numberLength text.toList = text.toList.length :=
  exists_digit_of_length? (first?_eq_some h).2

/-- A number goes no further than to a delimiter. -/
theorem first?_number_append {cs rest : List Char}
    (h : Pattern.number.length? cs = some cs.length) (hrest : Delimited rest) :
    Pattern.first? (cs ++ rest) = some (.number, cs.length) := by
  obtain ⟨d, ds, rfl, hd, hlength⟩ := exists_digit_of_length? h
  exact first?_number hd ((endsAtDelimiter_numberLength hrest _).trans hlength)

theorem isNumeral_iff {text : String} :
    IsNumeral text ↔ Pattern.number.length? text.toList = some text.toList.length := by
  refine ⟨fun h => (first?_eq_some h).2, fun h => ?_⟩
  have hfirst := first?_number_append h delimited_nil
  rwa [List.append_nil] at hfirst

/-- A numeral before a delimiter is the piece that is cut off, whole. -/
theorem IsNumeral.first? {text : String} {rest : List Char} (h : IsNumeral text)
    (hrest : Delimited rest) :
    Pattern.first? (text.toList ++ rest) = some (.number, text.toList.length) :=
  first?_number_append (isNumeral_iff.1 h) hrest

/-! ## Texts before a delimiter -/

variable {text text' rest : List Char} {ts ts' : List Terminal}

/-- Scanning finds the terminals in front of a delimiter. -/
def Yields (text : List Char) (ts : List Terminal) : Prop :=
  ∀ rest, Delimited rest → terminals? (text ++ rest) = (terminals? rest).map (ts ++ ·)

theorem Spells.yields (h : Spells text (some ts)) : Yields text ts := by
  intro rest hrest
  exact h rest (hrest.head (by decide)) (hrest.head (by decide))

namespace Yields

theorem nil : Yields [] [] := Spells.nil.yields

theorem number {x : String} (h : IsNumeral x) : Yields x.toList [⟨.number, x⟩] := by
  intro rest hrest
  rw [terminals?_append (h.first? hrest), Pattern.terminal?, Pattern.token?, String.ofList_toList]
  rfl

theorem string (value : String) : Yields (quoted value).toList [⟨.string, value⟩] := by
  have hchars : ∀ c ∈ value.toList, StandsFor (quotedChar c) c := by
    intro c _
    unfold quotedChar
    split
    · exact .inl ⟨'"', rfl, by decide, fun cs => by rw [unescape]⟩
    · exact .inl ⟨'\\', rfl, by decide, fun cs => by rw [unescape]⟩
    · exact .inl ⟨'n', rfl, by decide, fun cs => by rw [unescape]⟩
    · next hquote hslash hline => exact .inr ⟨rfl, hquote, hslash, hline⟩
  intro rest _
  obtain ⟨hread, hlength⟩ := unescape_flatMap hchars rest
  rw [quoted, String.toList_ofList, ← List.append_cons, terminals?_quoted hlength, hread,
    String.ofList_toList]
  rfl

/-- Texts are read one after the other if the second begins with a delimiter. -/
theorem append {c : Char} (h : Yields text ts) (hc : isDelimiter c = true)
    (h' : Yields (c :: text') ts') : Yields (text ++ c :: text') (ts ++ ts') := by
  intro rest hrest
  have hnext : Delimited (c :: text' ++ rest) := delimited_cons.2 hc
  rw [List.append_assoc, h _ hnext, h' rest hrest]
  simp [Function.comp_def]

/-- Parentheses, brackets and commas are found whatever follows. -/
theorem mark {c : Char} {k : TokenKind}
    (hc : ∀ cs, Pattern.first? ([c] ++ cs) = some (.sign [c] k, 1)) (h : Yields text ts) :
    Yields (c :: text) (⟨k, String.singleton c⟩ :: ts) := by
  intro rest hrest
  rw [List.cons_append, ← List.singleton_append, terminals?_append (hc _), h rest hrest,
    Pattern.terminal?, Pattern.token?]
  simp [Function.comp_def]

theorem parenthesized (h : Yields text ts) :
    Yields ('(' :: (text ++ [')'])) (Terminal.parenthesized ts) := by
  have hclosed := h.append rfl (nil.mark (c := ')') (k := .closeParen) fun _ => rfl)
  exact hclosed.mark fun _ => rfl

theorem bracketed (h : Yields text ts) :
    Yields ('[' :: (text ++ [']'])) (Terminal.bracketed ts) := by
  have hclosed := h.append rfl (nil.mark (c := ']') (k := .closeBracket) fun _ => rfl)
  exact hclosed.mark fun _ => rfl

/-- A sign is read as such if the text behind it does not continue it. -/
theorem sign {s : List Char} {k : TokenKind} (hs : Pattern.sign s k ∈ table)
    (ho : Avoids continuesSign text) (h : Yields text ts) :
    Yields (s ++ text) (⟨k, String.ofList s⟩ :: ts) := by
  intro rest hrest
  rw [List.append_assoc, terminals?_sign hs (ho.head rest), h rest hrest]
  simp [Function.comp_def]

theorem blanks (gap : Nat) (ho : Avoids Text.isBlank text) (h : Yields text ts) :
    Yields (List.replicate gap ' ' ++ text) ts := by
  cases gap with
  | zero => exact h
  | succ gap =>
    intro rest hrest
    have hblank : ∀ c ∈ List.replicate (gap + 1) ' ', Text.isBlank c = true := by
      intro c hc
      rw [List.eq_of_mem_replicate hc]
      rfl
    have hrun := run_append hblank (ho.head rest)
    have hfirst : Pattern.first? (List.replicate (gap + 1) ' ' ++ (text ++ rest)) =
        some (.blanks, (List.replicate (gap + 1) ' ').length) := by
      rw [← hrun]
      exact first?_of_isBlank (hblank ' ' (by simp))
    rw [List.append_assoc, terminals?_append hfirst, h rest hrest]
    simp [Pattern.terminal?, Pattern.token?, Function.comp_def]

/-- A text with nothing behind it is read to its terminals and the end. -/
theorem terminals?_eq (h : Yields text ts) : terminals? text = some (ts ++ [.endOfText]) := by
  have hall := h [] delimited_nil
  rwa [List.append_nil, terminals?_nil] at hall

end Yields

/-! ## Reading back -/

/-- Each layer of expressions is part of the looser ones. -/
theorem DerivesExpr.expr_of_suffixed {rest : List Terminal} {ss : List Shape}
    (h : DerivesExpr .suffixed ts rest ss) : DerivesExpr .expr ts rest ss :=
  h.loosen (by decide) (by decide)

/-- The text is scanned as terminals that derive the tree as an operand of every operation. -/
structure Legible (text : List Char) (s : Shape) : Prop where
  opens : Opens text
  reads : ∃ ts, Yields text ts ∧ ∀ rest, DerivesExpr .suffixed (ts ++ rest) rest [s]

namespace Legible

variable {s s' : Shape}

/-- One token that is an expression. -/
theorem atom {rule : Rule} {k : TokenKind} {value : String} (ho : Opens text)
    (hy : Yields text [⟨k, value⟩]) (hk : k.atomRule? = some rule) :
    Legible text (.leaf rule value) :=
  ⟨ho, _, hy, fun _ => .ofPrimary (.atom hk)⟩

/-- Parentheses make an operand of every expression. -/
theorem group (hy : Yields text ts) (hd : ∀ rest, DerivesExpr .expr (ts ++ rest) rest [s]) :
    Legible ('(' :: (text ++ [')'])) s := by
  refine ⟨opens_cons rfl rfl, _, hy.parenthesized, ?_⟩
  intro rest
  rw [Terminal.parenthesized_append]
  exact .ofPrimary (.group rfl (hd _) rfl)

/-- An operation in brackets, with blanks around its sign. -/
theorem binary {op : BinaryOp} {k : TokenKind} (hk : op.kind? = some k) (h : Legible text s)
    (h' : Legible text' s') :
    Legible ('(' :: (text ++ ' ' :: (op.symbol.toList ++ ' ' :: text') ++ [')']))
      (.branch .binary [s, .leaf .op op.symbol, s']) := by
  obtain ⟨ho, ts, hy, hd⟩ := h
  obtain ⟨ho', ts', hy', hd'⟩ := h'
  obtain ⟨hmem, hblank⟩ := op.sign_mem_table hk
  have hright := (hy'.blanks 1 ho'.1).sign hmem (avoids_cons.2 rfl)
  rw [String.ofList_toList] at hright
  apply group (hy.append rfl (hright.blanks 1 hblank.append))
  intro rest
  rw [List.append_assoc]
  have hlevels : op.leftLevel ≤ 6 ∧ op.rightLevel ≤ 6 ∧ 1 ≤ op.level := by cases op <;> decide
  exact .ofOperator (o := ⟨k, op.symbol⟩) hk
    (fun _ hs hle => (hd _).loosen hs (Nat.le_trans hle hlevels.1))
    (fun _ hs hle => (hd' _).loosen hs (Nat.le_trans hle hlevels.2.1)) (by decide) hlevels.2.2

/-- A sign before an operand, in brackets. The blanks between the two do not matter. -/
theorem unary (op : UnaryOp) (gap : Nat) (h : Legible text s) :
    Legible ('(' :: (op.symbol.toList ++ (List.replicate gap ' ' ++ text) ++ [')']))
      (.branch .unary [.leaf .op op.symbol, s]) := by
  obtain ⟨ho, ts, hy, hd⟩ := h
  obtain ⟨k, hmem, hk⟩ : ∃ k, Pattern.sign op.symbol.toList k ∈ table ∧
      (k = .dash ∨ k = .bang) := by
    cases op with
    | negate => exact ⟨.dash, by decide, .inl rfl⟩
    | not => exact ⟨.bang, by decide, .inr rfl⟩
  have hnext : Avoids continuesSign (List.replicate gap ' ' ++ text) := by
    cases gap with
    | zero => exact ho.2
    | succ gap => exact avoids_cons.2 rfl
  have hsign := (hy.blanks gap ho.1).sign hmem hnext
  rw [String.ofList_toList] at hsign
  apply group hsign
  intro rest
  have hoperand : DerivesExpr .unary (ts ++ rest) rest [s] :=
    (hd rest).loosen (by decide) (by decide)
  exact (DerivesExpr.sign hk hoperand).loosen (by decide) (by decide)

theorem subscript (h : Legible text s) (h' : Legible text' s') :
    Legible (text ++ '[' :: (text' ++ [']'])) (.branch .subscript [s, s']) := by
  obtain ⟨ho, ts, hy, hd⟩ := h
  obtain ⟨-, ts', hy', hd'⟩ := h'
  refine ⟨ho.append, _, hy.append rfl hy'.bracketed, ?_⟩
  intro rest
  rw [List.append_assoc, Terminal.bracketed_append]
  exact .subscript (hd _) rfl (hd' _).expr_of_suffixed rfl

/-- Texts with commas between them. -/
theorem exprs {texts : List String} {ss : List Shape}
    (h : List.Forall₂ (fun text s => Legible text.toList s) texts ss) (hne : texts ≠ []) :
    Opens (", ".intercalate texts).toList ∧ ∃ ts, Yields (", ".intercalate texts).toList ts ∧
      ∀ rest, DerivesExpr .exprs (ts ++ rest) rest ss := by
  induction h with
  | nil => exact absurd rfl hne
  | @cons text s texts ss h hs ih =>
    obtain ⟨ho, ts, hy, hd⟩ := h
    cases hs with
    | nil =>
      refine ⟨ho, ts, hy, ?_⟩
      intro rest
      exact .one (hd rest).expr_of_suffixed
    | @cons text' s' texts ss _ _ =>
      obtain ⟨ho', ts', hy', hd'⟩ := ih (List.cons_ne_nil _ _)
      have htext : (", ".intercalate (text :: text' :: texts)).toList =
          text.toList ++ ',' :: ' ' :: (", ".intercalate (text' :: texts)).toList := by
        simp [String.toList_intercalate]
      rw [htext]
      refine ⟨ho.append, _, hy.append rfl ((hy'.blanks 1 ho'.1).mark fun _ => rfl), ?_⟩
      intro rest
      rw [List.append_assoc]
      exact .more (hd _).expr_of_suffixed rfl (hd' rest)

theorem arguments {texts : List String} {ss : List Shape}
    (h : List.Forall₂ (fun text s => Legible text.toList s) texts ss) :
    ∃ ts, Yields (", ".intercalate texts).toList ts ∧
      ∀ rest, DerivesExpr .arguments (ts ++ rest) rest ss := by
  cases h with
  | nil => exact ⟨[], .nil, fun rest => .noArguments⟩
  | cons h hs =>
    obtain ⟨-, ts, hy, hd⟩ := exprs (.cons h hs) (List.cons_ne_nil _ _)
    exact ⟨ts, hy, fun rest => .someArguments (hd rest)⟩

/-- A call, with its arguments between commas. -/
theorem call {x : String} (hx : IsName x) {texts : List String} {ss : List Shape}
    (h : List.Forall₂ (fun text s => Legible text.toList s) texts ss) :
    Legible (x.toList ++ '(' :: ((", ".intercalate texts).toList ++ [')']))
      (.branch .call (.leaf .id x :: ss)) := by
  obtain ⟨ts, hy, hd⟩ := arguments h
  refine ⟨hx.opens.append, _, (Spells.name hx).yields.append rfl hy.parenthesized, ?_⟩
  intro rest
  rw [List.append_assoc, Terminal.parenthesized_append]
  exact .call (.ofPrimary (.atom rfl)) rfl rfl (hd _) rfl

theorem array {texts : List String} {ss : List Shape}
    (h : List.Forall₂ (fun text s => Legible text.toList s) texts ss) :
    Legible ('[' :: ((", ".intercalate texts).toList ++ [']'])) (.branch .arrayLit ss) := by
  obtain ⟨ts, hy, hd⟩ := arguments h
  refine ⟨opens_cons rfl rfl, _, hy.bracketed, ?_⟩
  intro rest
  rw [Terminal.bracketed_append]
  exact .ofPrimary (.array rfl (hd _) rfl)

end Legible

namespace SourceExpr

theorem forall₂_legible {gap : Nat} {es : List SourceExpr}
    (h : ∀ e ∈ es, Legible (e.written gap).toList e.shape) :
    List.Forall₂ (fun text s => Legible text.toList s) (writtenAll gap es) (shapes es) := by
  induction es with
  | nil => exact .nil
  | cons e es ih =>
    refine .cons (h e (List.mem_cons_self ..)) (ih ?_)
    intro e' he'
    exact h e' (List.mem_cons_of_mem _ he')

/-- Every expression is written so that it can be read back. The induction is over the expression,
with one lemma for each of its forms. -/
theorem legible_written (gap : Nat) (e : SourceExpr) : Legible (e.written gap).toList e.shape := by
  induction e using SourceExpr.induction with
  | name x => exact .atom x.2.opens (Spells.name x.2).yields rfl
  | number x =>
    refine .atom ?_ (.number x.2) rfl
    obtain ⟨d, ds, htext, hd, -⟩ := x.2.exists_digit
    rw [written, htext]
    exact opens_of_toNat (.inl (Char.isDigit_iff_toNat.1 hd))
  | string value =>
    refine .atom ?_ (.string value) rfl
    rw [written, quoted, String.toList_ofList]
    exact opens_cons rfl rfl
  | bool value =>
    have hplain : (Literal.bool value).Plain := trivial
    cases value with
    | true => exact .atom hplain.opens (Spells.literal hplain).yields rfl
    | false => exact .atom hplain.opens (Spells.literal hplain).yields rfl
  | binary op left right ihl ihr =>
    obtain ⟨op, hop⟩ := op
    obtain ⟨k, hk⟩ : ∃ k, op.kind? = some k := by
      cases op <;> first | exact ⟨_, rfl⟩ | exact absurd rfl hop
    simpa [written, shape] using Legible.binary hk ihl ihr
  | unary op operand ih => simpa [written, shape] using Legible.unary op gap ih
  | call x args ih => simpa [written, shape] using Legible.call x.2 (forall₂_legible ih)
  | subscript base index ihb ihi => simpa [written, shape] using Legible.subscript ihb ihi
  | array elements ih => simpa [written, shape] using Legible.array (forall₂_legible ih)

/-- Every expression is read back from its text. -/
theorem readsAs_written (e : SourceExpr) (gap : Nat) (file : Option String) :
    ReadsAs (e.written gap) file e.shape := by
  obtain ⟨-, ts, hy, hd⟩ := legible_written gap e
  rw [readsAs_iff_derives hy.terminals?_eq]
  exact ⟨_, (hd _).expr_of_suffixed, rfl⟩

example : (subscript (unary .negate (number ⟨"1.5e3n", rfl⟩)) (array [binary ⟨.power, by decide⟩
    (string "a\"\n") (bool true), string "\\"])).written 1 =
      "(- 1.5e3n)[[(\"a\\\"\\n\" ** true), \"\\\\\"]]" := by
  rfl

end SourceExpr

end Scriptlet
