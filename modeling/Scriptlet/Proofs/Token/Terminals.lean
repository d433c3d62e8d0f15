import Scriptlet.Proofs.Token.Coherence

/-!
The terminals of a text: what scanning gives, without the places. They do not depend on where the
text starts, so that a text is read piece by piece: its first piece, and what the rest gives.
-/

namespace Scriptlet

/-- What stands for the end of the text. -/
def Terminal.endOfText : Terminal := ⟨.endOfText, "EOF"⟩

/-- The terminals of a text, if it can be scanned. -/
def terminals? (cs : List Char) : Option (List Terminal) :=
  (Token.scan Token.defaultFile 0 cs).toOption.map (List.map Token.terminal)

/-- The terminal that a piece of text makes. -/
def Pattern.terminal? (p : Pattern) (lexeme : List Char) : Option Terminal :=
  (p.token? lexeme).map fun (kind, value) => ⟨kind, value⟩

namespace Token

theorem map_terminal_ofLexeme? (file : String) (offset : Nat) (p : Pattern) (lexeme : List Char) :
    (ofLexeme? file offset p lexeme).toList.map terminal = (p.terminal? lexeme).toList := by
  rw [← Option.toList_map, ofLexeme?, Option.map_map]
  rfl

/-- The terminals of a text are those of its first piece and of the rest, wherever it stands. -/
theorem toOption_scan_of_first? {file : String} {offset : Nat} {p : Pattern} {n : Nat}
    {cs : List Char} (hcs : cs ≠ []) (h : Pattern.first? cs = some (p, n)) :
    (scan file offset cs).toOption.map (List.map terminal) =
      ((scan file (offset + Text.byteLength (cs.take n)) (cs.drop n)).toOption.map
        (List.map terminal)).map ((p.terminal? (cs.take n)).toList ++ ·) := by
  cases cs with
  | nil => exact absurd rfl hcs
  | cons c cs =>
    rw [scan]
    split
    · next hnone => cases hnone.symm.trans h
    · next q m hsome =>
      cases hsome.symm.trans h
      dsimp only
      cases scan file (offset + Text.byteLength ((c :: cs).take n)) ((c :: cs).drop n) with
      | error d => rfl
      | ok tokens =>
        show some (List.map terminal (_ ++ tokens)) = some (_ ++ List.map terminal tokens)
        rw [List.map_append, map_terminal_ofLexeme?]

/-- The terminals of a text are the same wherever it starts. -/
theorem toOption_scan (file : String) (offset : Nat) (cs : List Char) :
    (scan file offset cs).toOption.map (List.map terminal) = terminals? cs := by
  rw [terminals?]
  generalize 0 = offset'
  induction hlen : cs.length using Nat.strongRecOn generalizing offset offset' cs with
  | ind len ih =>
    cases cs with
    | nil => rw [scan, scan]; rfl
    | cons c cs =>
      cases hfirst : Pattern.first? (c :: cs) with
      | none =>
        rw [scan, scan]
        split
        · rfl
        · next hsome => cases hfirst.symm.trans hsome
      | some piece =>
        obtain ⟨p, n⟩ := piece
        have hpos := Pattern.first?_pos hfirst
        have hlt : ((c :: cs).drop n).length < len := by
          simp only [List.length_drop, List.length_cons] at hlen ⊢
          omega
        rw [toOption_scan_of_first? (List.cons_ne_nil c cs) hfirst,
          toOption_scan_of_first? (List.cons_ne_nil c cs) hfirst, ih _ hlt _ _ _ rfl]

end Token

/-! ## Piece by piece -/

theorem terminals?_nil : terminals? [] = some [.endOfText] := by
  rw [terminals?, Token.scan]
  rfl

/-- A text begins with the piece that the first pattern takes. -/
theorem terminals?_append {p : Pattern} {lexeme rest : List Char}
    (h : Pattern.first? (lexeme ++ rest) = some (p, lexeme.length)) :
    terminals? (lexeme ++ rest) =
      (terminals? rest).map ((p.terminal? lexeme).toList ++ ·) := by
  have hne : lexeme ++ rest ≠ [] := by
    rintro hnil
    rw [(List.append_eq_nil_iff.1 hnil).1] at h
    exact absurd (Pattern.first?_pos h) (Nat.lt_irrefl 0)
  rw [terminals?, Token.toOption_scan_of_first? hne h, List.take_left, List.drop_left,
    Token.toOption_scan]

theorem terminals?_of_first?_eq_none {c : Char} {cs : List Char}
    (h : Pattern.first? (c :: cs) = none) : terminals? (c :: cs) = none := by
  rw [terminals?, Token.scan]
  split
  · rfl
  · next hsome => cases h.symm.trans hsome

/-- The tokens of a source have the terminals of its text. -/
theorem tokenize_eq_ok_iff {source : String} (file : Option String) {ts : List Terminal} :
    (∃ tokens, tokenize source file = .ok tokens ∧ tokens.map Token.terminal = ts) ↔
      terminals? source.toList = some ts := by
  rw [← Token.toOption_scan (file.getD Token.defaultFile) 0, tokenize]
  cases Token.scan (file.getD Token.defaultFile) 0 source.toList <;>
    simp [Except.toOption]

/-! ## Single pieces -/

namespace Pattern

variable {rest : List Char}

/-- The second characters of signs and of the mark of a comment. -/
def continuesSign (c : Char) : Bool := c == '=' || c == '>' || c == '*' || c == '/'

theorem run_append {q : Char → Bool} {cs : List Char} (h : ∀ c ∈ cs, q c = true)
    (hrest : ∀ c ∈ rest.head?, q c = false) : run q (cs ++ rest) = cs.length := by
  rw [run, List.takeWhile_append_of_pos h]
  cases rest with
  | nil => simp
  | cons c rest => simp [hrest c rfl]

theorem toNat_of_isWordStart {c : Char} (h : isWordStart c = true) :
    65 ≤ c.toNat ∧ c.toNat ≤ 90 ∨ 97 ≤ c.toNat ∧ c.toNat ≤ 122 ∨ c.toNat = 95 := by
  change (decide ('A'.val ≤ c.val ∧ c.val ≤ 'Z'.val) ||
    decide ('a'.val ≤ c.val) && decide (c.val ≤ 'z'.val) || c == '_') = true at h
  simp only [UInt32.le_iff_toNat_le, Bool.or_eq_true, Bool.and_eq_true, decide_eq_true_eq,
    beq_iff_eq] at h
  rcases h with (h | h) | rfl
  · exact .inl h
  · exact .inr (.inl h)
  · exact .inr (.inr rfl)

theorem isWordStart_of_isDigit {c : Char} (h : c.isDigit = true) : isWordStart c = false := by
  have hdigit : 48 ≤ c.toNat ∧ c.toNat ≤ 57 := Char.isDigit_iff_toNat.1 h
  rw [← Bool.not_eq_true]
  intro hword
  have := toNat_of_isWordStart hword
  omega

/-- A word ends where no part of a word follows. -/
theorem first?_word {c : Char} {cs : List Char} (hc : isWordStart c = true)
    (hcs : ∀ c ∈ cs, isWordPart c = true) (hrest : ∀ c ∈ rest.head?, isWordPart c = false) :
    first? (c :: cs ++ rest) = some (word, (c :: cs).length) := by
  simp [first?, table, length?, hc, run_append hcs hrest]

theorem first?_blank (hrest : ∀ c ∈ rest.head?, Text.isBlank c = false) :
    first? ([' '] ++ rest) = some (blanks, 1) := by
  have hrun : run Text.isBlank ([' '] ++ rest) = 1 := run_append (List.all_eq_true.1 rfl) hrest
  have hword : isWordStart ' ' = false := by decide
  have hnumber : numberLength ([' '] ++ rest) = 0 := rfl
  rw [List.singleton_append] at hrun hnumber ⊢
  simp [first?, table, length?, hword, hnumber, hrun, nonzero?]

theorem first?_number {d : Char} {cs : List Char} {n : Nat} (hd : d.isDigit = true)
    (h : numberLength (d :: cs) = n + 1) : first? (d :: cs) = some (number, n + 1) := by
  simp [first?, table, length?, isWordStart_of_isDigit hd, h, nonzero?]

/-- Digits and the mark of a wide integer. -/
theorem first?_wide {d : Char} {ds : List Char} (hds : ∀ c ∈ d :: ds, c.isDigit = true) :
    first? (d :: ds ++ 'n' :: rest) = some (number, ds.length + 2) := by
  have hrun : run Char.isDigit (d :: ds ++ 'n' :: rest) = ds.length + 1 := run_append hds (by simp)
  have hdrop : (d :: ds ++ 'n' :: rest).drop (ds.length + 1) = 'n' :: rest := List.drop_left
  have hlength : numberLength (d :: ds ++ 'n' :: rest) = ds.length + 2 := by
    rw [numberLength, hrun]
    simp only [hdrop, fractionLength, powerLength, wideLength]
    simp
  exact first?_number (hds d List.mem_cons_self) hlength

theorem first?_string {cs : List Char} {n : Nat} (h : stringLength? cs = some n) :
    first? ('"' :: cs) = some (string, n + 1) := by
  have hword : isWordStart '"' = false := by decide
  have hnumber : numberLength ('"' :: cs) = 0 := rfl
  have hblank : run Text.isBlank ('"' :: cs) = 0 := rfl
  simp [first?, table, length?, hword, hnumber, hblank, h, nonzero?]

theorem length?_comment {c d : Char} {cs : List Char} (h : d ≠ '/') :
    comment.length? (c :: d :: cs) = none := by
  rw [length?] <;> simp
  exact fun _ => h

theorem length?_sign (text cs : List Char) (kind : TokenKind) :
    (sign text kind).length? cs = if text.isPrefixOf cs then nonzero? text.length else none := by
  rw [length?]

/-- A sign is taken whole where no character follows that would make another sign of it. -/
theorem first?_sign {text : List Char} {kind : TokenKind} (h : sign text kind ∈ table)
    (hrest : ∀ c ∈ rest.head?, continuesSign c = false) :
    first? (text ++ rest) = some (sign text kind, text.length) := by
  simp only [table, List.mem_cons, reduceCtorEq, false_or, List.not_mem_nil, or_false] at h
  rcases h with h | h | h | h | h | h | h | h | h | h | h | h | h | h | h | h | h | h | h | h | h |
    h <;> cases h
  -- What no longer sign begins is found whatever follows.
  all_goals try rfl
  all_goals
    cases rest with
    | nil => rfl
    | cons c rest =>
      simp only [continuesSign, List.head?_cons, Option.mem_def, Option.some.injEq, forall_eq',
        Bool.or_eq_false_iff, beq_eq_false_iff_ne] at hrest
      obtain ⟨⟨⟨h₁, h₂⟩, h₃⟩, h₄⟩ := hrest
      rw [first?, table]
      repeat rw [List.findSome?_cons]
      simp only [length?_sign, length?_comment h₄, List.cons_append, List.nil_append,
        List.isPrefixOf, Ne.symm h₁, Ne.symm h₂, Ne.symm h₃, beq_iff_eq, Bool.and_eq_true]
      rfl

end Pattern

section

open Pattern

variable {rest : List Char}

theorem terminals?_word (word : String) {c : Char} {cs : List Char} (hword : word.toList = c :: cs)
    (hc : isWordStart c = true) (hcs : ∀ c ∈ cs, isWordPart c = true)
    (hrest : ∀ c ∈ rest.head?, isWordPart c = false) :
    terminals? (word.toList ++ rest) = (terminals? rest).map (⟨.ofWord word, word⟩ :: ·) := by
  rw [hword, terminals?_append (first?_word hc hcs hrest), ← hword]
  simp [terminal?, token?]

theorem terminals?_blank (hrest : ∀ c ∈ rest.head?, Text.isBlank c = false) :
    terminals? (' ' :: rest) = terminals? rest := by
  rw [← List.singleton_append, terminals?_append (first?_blank hrest)]
  simp [terminal?, token?]

/-- Digits with the mark `n` are one number. -/
theorem terminals?_wide {d : Char} {ds : List Char} (hds : ∀ c ∈ d :: ds, c.isDigit = true) :
    terminals? (d :: ds ++ 'n' :: rest) =
      (terminals? rest).map (⟨.number, String.ofList (d :: ds ++ ['n'])⟩ :: ·) := by
  rw [List.append_cons, terminals?_append (p := number)]
  · rfl
  · rw [← List.append_cons, first?_wide hds]
    simp

/-- A string is one terminal, with its escapes resolved. -/
theorem terminals?_quoted {body : List Char}
    (h : stringLength? (body ++ '"' :: rest) = some (body.length + 1)) :
    terminals? ('"' :: body ++ '"' :: rest) =
      (terminals? rest).map (⟨.string, String.ofList (unescape body)⟩ :: ·) := by
  rw [List.append_cons, terminals?_append (p := string)]
  · simp [terminal?, token?]
  · rw [← List.append_cons, List.cons_append, first?_string h]
    simp

theorem terminals?_sign {text : List Char} {kind : TokenKind} (h : sign text kind ∈ table)
    (hrest : ∀ c ∈ rest.head?, continuesSign c = false) :
    terminals? (text ++ rest) = (terminals? rest).map (⟨kind, String.ofList text⟩ :: ·) := by
  rw [terminals?_append (first?_sign h hrest)]
  rfl

end

end Scriptlet
