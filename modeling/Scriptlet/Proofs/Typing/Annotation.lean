import Scriptlet.Proofs.Program.Names
import Scriptlet.Proofs.SyntaxTree.Excerpt
import Scriptlet.Proofs.SyntaxTree.Writing
import Scriptlet.Proofs.Typing.Expr

/-!
Types as they are written. The name of a type is read back as the type, and wherever a type is read
in a source, its name is what stands there without blanks and comments. So a type has one name only.
-/

namespace Scriptlet

/-! ## Texts without blanks and comments -/

namespace Text

/-- The text without blanks and comments. It may begin inside a comment. -/
def bareFrom (comment : Bool) : List Char → List Char
  | [] => []
  | c :: cs =>
    if comment then bareFrom (c ≠ '\n') cs
    else if c = '/' ∧ cs.head? = some '/' then bareFrom true cs
    else if isBlank c then bareFrom false cs
    else c :: bareFrom false cs

def bare (cs : List Char) : List Char := bareFrom false cs

variable {c : Char} {cs bs line : List Char}

theorem bare_cons (hc : c ≠ '/') :
    bare (c :: cs) = if isBlank c then bare cs else c :: bare cs := by
  simp [bare, bareFrom, hc]

theorem bare_append_of_isBlank (h : ∀ c ∈ bs, isBlank c = true) : bare (bs ++ cs) = bare cs := by
  induction bs with
  | nil => rfl
  | cons b bs ih =>
    obtain ⟨hb, hbs⟩ := List.forall_mem_cons.1 h
    have hslash : b ≠ '/' := by
      rintro rfl
      cases hb
    rw [List.cons_append, bare_cons hslash, if_pos hb, ih hbs]

/-- Characters that stay as they are. -/
theorem bare_append (h : ∀ c ∈ bs, isBlank c = false ∧ c ≠ '/') :
    bare (bs ++ cs) = bs ++ bare cs := by
  induction bs with
  | nil => rfl
  | cons b bs ih =>
    obtain ⟨hb, hbs⟩ := List.forall_mem_cons.1 h
    rw [List.cons_append, bare_cons hb.2, hb.1, if_neg Bool.false_ne_true, ih hbs, List.cons_append]

/-- A comment goes to the end of its line. -/
theorem bare_comment (h : ∀ c ∈ line, c ≠ '\n') (hcs : ∀ c ∈ cs.head?, c = '\n') :
    bare ('/' :: '/' :: line ++ cs) = bare cs := by
  have hinside : bareFrom true (line ++ cs) = bare cs := by
    induction line with
    | nil =>
      cases cs with
      | nil => rfl
      | cons c cs =>
        cases hcs c rfl
        rfl
    | cons c line ih =>
      obtain ⟨hc, hline⟩ := List.forall_mem_cons.1 h
      rw [List.cons_append, bareFrom, if_pos rfl, decide_eq_true hc, ih hline]
  rw [← hinside]
  rfl

end Text

/-- A gap between two pieces leaves nothing. -/
theorem IsGap.bare {rest taken gap : List Char} (h : IsGap (taken ++ rest) gap) :
    Text.bare (gap ++ taken) = Text.bare taken := by
  induction h with
  | nil => rfl
  | blanks _ hblank _ ih => rw [List.append_assoc, Text.bare_append_of_isBlank hblank, ih]
  | @comment line gap hline hend _ ih =>
    have hhead : ∀ c ∈ (gap ++ taken).head?, c = '\n' := by
      intro c hc
      apply hend
      rw [← List.append_assoc]
      exact List.mem_head?_append_of_mem_head? hc
    rw [List.append_assoc, Text.bare_comment hline hhead, ih]

/-! ## Names of types -/

namespace Ty

/-- The terminals of the name of a type. -/
def terminals : Ty → List Terminal
  | scalar s => [⟨.identifier, s.name⟩]
  | array element => element.terminals ++ Terminal.bracketed []

/-- The name of a type is its terminals, one after the other. -/
theorem toList_name (t : Ty) : t.name.toList = t.terminals.flatMap (·.value.toList) := by
  induction t with
  | scalar s => exact (List.append_nil _).symm
  | array element ih =>
    rw [name, String.toList_append, ih, terminals, List.flatMap_append]
    rfl

theorem kind_of_mem_terminals {t : Ty} {x : Terminal} (h : x ∈ t.terminals) :
    x.kind = .identifier ∨ x.kind = .openBracket ∨ x.kind = .closeBracket := by
  induction t with
  | scalar s =>
    cases List.mem_singleton.1 h
    exact .inl rfl
  | array element ih =>
    rcases List.mem_append.1 h with h | h
    · exact ih h
    · rcases List.mem_pair.1 h with rfl | rfl
      · exact .inr (.inl rfl)
      · exact .inr (.inr rfl)

theorem isName_scalar (s : Scalar) : IsName s.name := by
  cases s <;> exact ⟨_, _, rfl, rfl, List.all_eq_true.1 rfl, rfl⟩

theorem yields_name (t : Ty) : Yields t.name.toList t.terminals := by
  induction t with
  | scalar s => exact (Spells.name (isName_scalar s)).yields
  | array element ih =>
    rw [name, String.toList_append]
    exact ih.append rfl Yields.nil.bracketed

/-- The terminals of a type derive a tree that describes it. -/
theorem exists_derivesType (t : Ty) (rest : List Terminal) :
    ∃ s, DerivesType (t.terminals ++ rest) rest s ∧ DenotesType s t := by
  induction t generalizing rest with
  | scalar s => exact ⟨_, .name rfl, .name s⟩
  | array element ih =>
    obtain ⟨s, hs, ht⟩ := ih (⟨.openBracket, "["⟩ :: ⟨.closeBracket, "]"⟩ :: rest)
    refine ⟨_, .array (l := ⟨.openBracket, "["⟩) (r := ⟨.closeBracket, "]"⟩) ?_ rfl rfl, .array ht⟩
    rw [terminals, List.append_assoc]
    exact hs

end Ty

theorem Terminal.Coherent.eq_of_sign? {x : Terminal} {kind : TokenKind} {text : String}
    (h : x.Coherent) (hk : x.kind = kind) (htext : kind.sign? = some text) : x = ⟨kind, text⟩ := by
  subst hk
  rw [← h text htext]

/-- A tree that describes a type is derived by the terminals of the type. -/
theorem DenotesType.terminals_eq {ts rest : List Terminal} {s : Shape} {t : Ty}
    (ht : DenotesType s t) (h : DerivesType ts rest s) (hts : ∀ x ∈ ts, x.Coherent) :
    ts = t.terminals ++ rest := by
  induction ht generalizing ts rest with
  | name s =>
    generalize hs : Shape.leaf .type s.name = shape at h
    cases h with
    | @name x rest hk =>
      obtain ⟨kind, value⟩ := x
      cases hk
      cases hs
      rfl
    | array => cases hs
  | array _ ih =>
    cases h with
    | @array _ l r _ _ h hl hr =>
      have hbrackets := ih h hts
      have hsuffix := h.suffix.subset
      have hopen := (hts l (hsuffix List.mem_cons_self)).eq_of_sign? hl rfl
      have hclose :=
        (hts r (hsuffix (List.mem_cons_of_mem _ List.mem_cons_self))).eq_of_sign? hr rfl
      rw [hbrackets, hopen, hclose, Ty.terminals, List.append_assoc]
      rfl

/-- The name of a type is read back as the type. -/
theorem solve_name (t : Ty) (file : Option String) :
    ∃ tokens node c, tokenize t.name file = .ok tokens ∧
      (⟨.standard, t.name.toList⟩ : Parser).solve (.type .default) (.ofTokens tokens) =
        .ok node c ∧ c.terminals = [.endOfText] ∧ node.toType = .ok t := by
  have hscan : terminals? t.name.toList = some (t.terminals ++ [.endOfText]) := by
    have hname := t.yields_name [] delimited_nil
    rwa [List.append_nil, terminals?_nil] at hname
  obtain ⟨tokens, htokens, hterminals⟩ := (tokenize_eq_ok_iff file).2 hscan
  have hends := (tokenize_coherent htokens).1
  obtain ⟨s, hs, ht⟩ := t.exists_derivesType [.endOfText]
  rw [← hterminals, ← hends.terminals_ofTokens] at hs
  obtain ⟨node, c, hread, hc, rfl⟩ := Parser.run_of_derivesType (p := ⟨.standard, t.name.toList⟩)
    (n := Parser.depth (.ofTokens tokens)) rfl hs rfl rfl (by decide)
    (by simp [Parser.depth, Cursor.remaining])
  exact ⟨tokens, node, c, htokens, hread, hc,
    (Node.toType_eq_ok_iff (N := fun _ => True) hs.laid rfl).2 ht⟩

/-! ## Pieces of annotations -/

namespace Pattern

theorem toNat_of_isWordPart {c : Char} (h : isWordPart c = true) :
    48 ≤ c.toNat ∧ c.toNat ≤ 122 := by
  rw [isWordPart, Char.isAlphanum, Bool.or_assoc, Bool.or_comm c.isDigit, ← Bool.or_assoc,
    Bool.or_eq_true] at h
  rcases h with h | h
  · have := toNat_of_isWordStart h
    omega
  · have : 48 ≤ c.toNat ∧ c.toNat ≤ 57 := Char.isDigit_iff_toNat.1 h
    omega

theorem isBlank_of_isWordPart {c : Char} (h : isWordPart c = true) :
    Text.isBlank c = false ∧ c ≠ '/' := by
  have hrange := toNat_of_isWordPart h
  refine ⟨?_, ?_⟩
  · rw [← Bool.not_eq_true]
    intro hblank
    have := toNat_of_isBlank hblank
    omega
  · rintro rfl
    exact absurd hrange.1 (by decide)

/-- A name or a bracket is written with neither blanks nor slashes. -/
theorem Takes.plain {p : Pattern} {lexeme cs : List Char} {kind : TokenKind} {value : String}
    (h : p.Takes (lexeme ++ cs) lexeme.length) (hp : p ∈ table)
    (ht : p.token? lexeme = some (kind, value))
    (hkind : kind = .identifier ∨ kind = .openBracket ∨ kind = .closeBracket) :
    value.toList = lexeme ∧ ∀ c ∈ value.toList, Text.isBlank c = false ∧ c ≠ '/' := by
  have htaken : p.token? ((lexeme ++ cs).take lexeme.length) = some (kind, value) := by
    rwa [List.take_left]
  have hcoherent := (token?_coherent hp (length?_eq_some_iff.2 h) htaken).1
  have hstring : kind ≠ .string := by
    rcases hkind with rfl | rfl | rfl <;> decide
  have hvalue : value = String.ofList lexeme := by
    have hwritten := h.writtenAs hp ht
    rwa [Terminal.WrittenAs, if_neg hstring] at hwritten
  refine ⟨by rw [hvalue, String.toList_ofList], ?_⟩
  rcases hkind with rfl | rfl | rfl
  · exact fun c hc => isBlank_of_isWordPart ((isWord_of_token? h hp htaken).parts c hc)
  · have hopen : value = "[" := hcoherent _ rfl
    rw [hopen]
    exact List.forall_mem_singleton.2 ⟨rfl, by decide⟩
  · have hclose : value = "]" := hcoherent _ rfl
    rw [hclose]
    exact List.forall_mem_singleton.2 ⟨rfl, by decide⟩

end Pattern

/-- Names and brackets are what is left of a text without its blanks and comments. -/
theorem Token.Scans.bare {file : String} {offset : Nat} {text rest : List Char}
    {own : List Token} (h : Scans file offset text own rest)
    (hown : ∀ t ∈ own, t.kind = .identifier ∨ t.kind = .openBracket ∨ t.kind = .closeBracket) :
    Text.bare text = own.flatMap (·.value.toList) := by
  induction h with
  | start => rfl
  | @piece lexeme taken rest p offset found hfirst _ ih =>
    obtain ⟨hp, hlength⟩ := Pattern.first?_eq_some hfirst
    have htakes := Pattern.length?_eq_some_iff.1 hlength
    rw [List.flatMap_append, ← ih fun t ht => hown t (List.mem_append_right _ ht)]
    cases hmade : p.token? lexeme with
    | none =>
      have hgap : IsGap (taken ++ rest) (lexeme ++ []) := Pattern.Takes.isGap htakes hmade .nil
      rw [List.append_nil] at hgap
      rw [ofLexeme?, hmade]
      exact hgap.bare
    | some made =>
      obtain ⟨kind, value⟩ := made
      have hkind := hown ⟨kind, value, .covering file offset (Text.byteLength lexeme)⟩
        (List.mem_append_left _ (by rw [ofLexeme?, hmade]; exact List.mem_singleton_self _))
      obtain ⟨hvalue, hplain⟩ := htakes.plain hp hmade hkind
      rw [hvalue] at hplain
      rw [Text.bare_append hplain, ofLexeme?, hmade]
      simp [hvalue]

/-! ## Annotations -/

theorem Parser.Continues.span_type {p : Parser} {solve : Goal → ParseM Node} {start : Position}
    {left node : Node} {c c' : Cursor} (hleft : left.span = ⟨start, c.previousEnd⟩)
    (h : p.Continues solve .types .default left c node c') :
    node.span = ⟨start, c'.previousEnd⟩ := by
  induction h with
  | done => exact hleft
  | next _ ht hn _ ih =>
    cases Operators.trailing_types ht
    obtain ⟨-, -, rfl, rfl⟩ := Parser.arrayType_eq_ok.1 hn
    apply ih
    rw [Parser.nodeTo, Node.start, hleft]

/-- A type spans what is taken for it. -/
theorem Parser.span_of_run_type {p : Parser} (hp : p.grammar = .standard) {n : Nat} {node : Node}
    {c c' : Cursor} (hc : c.Ended) (h : p.run n (.type .default) c = .ok node c') :
    node.span = ⟨c.start, c'.previousEnd⟩ := by
  cases n with
  | zero => simp [Parser.run, ParseM.tooDeep_apply] at h
  | succ n =>
    rw [Parser.run, Parser.step, hp] at h
    obtain ⟨l, hl, first, c₁, hf, h⟩ := Parser.operand_eq_ok.1 h
    cases Operators.leading_types hl
    obtain ⟨hk, rfl, rfl⟩ := Parser.namedType_eq_ok.1 hf
    refine Continues.span_type ?_ (continues_of_extend h)
    have htakes := hc.takes (by rw [hk]; decide)
    rw [htakes.previousEnd_eq rfl]
    rfl

theorem EndsOnce.ended_of_suffix {tokens : List Token} {c : Cursor} (h : EndsOnce tokens)
    (hc : c.tokens <:+ tokens) : c.Ended := by
  obtain ⟨body, last, rfl, hlast, -⟩ := h
  obtain ⟨before, hbefore⟩ := hc
  have hend : c.tokens.getLast? = some last := by
    have hne : c.tokens ≠ [] := List.cons_ne_nil _ _
    rw [← List.getLast?_append_of_ne_nil before hne]
    exact (congrArg List.getLast? hbefore).trans List.getLast?_concat
  refine ⟨last.terminal, ?_, hlast⟩
  show (c.tokens.map Token.terminal).getLast? = _
  rw [List.getLast?_map, hend]
  rfl

/-- Wherever a type is read, its name stands there, with blanks and comments. -/
theorem exists_annotation {source : String} {file : Option String} {tokens : List Token}
    {c c' : Cursor} {n : Nat} {node : Node} {t : Ty} (h : tokenize source file = .ok tokens)
    (hc : c.tokens <:+ tokens)
    (hread : (⟨.standard, source.toList⟩ : Parser).run n (.type .default) c = .ok node c')
    (ht : node.toType = .ok t) :
    ∃ before written rest, source.toList = before ++ (written ++ rest) ∧
      Token.scan (file.getD Token.defaultFile) (Text.byteLength before) (written ++ rest) =
        .ok c.tokens ∧
      Token.scan (file.getD Token.defaultFile)
        (Text.byteLength before + Text.byteLength written) rest = .ok c'.tokens ∧
      node.span = .covering (file.getD Token.defaultFile) (Text.byteLength before)
        (Text.byteLength written) ∧
      Text.bare written = t.name.toList := by
  obtain ⟨hends, hcoherent⟩ := tokenize_coherent h
  have hended := hends.ended_of_suffix hc
  obtain ⟨own, hne, htakes, -⟩ := Parser.covering_run rfl n _ hended hread
  have hderives : DerivesType c.terminals c'.terminals node.shape :=
    (Parser.run_sound rfl n (.type .default) rfl hended hread).1
  have hdenotes := (Node.toType_eq_ok_iff (N := fun _ => True) hderives.laid rfl).1 ht
  obtain ⟨front, hfront⟩ := hc
  -- The tokens that are taken are those of the name.
  have hown : own.map Token.terminal = t.terminals := by
    have hterminals := hdenotes.terminals_eq hderives fun x hx => hcoherent x <| by
      rw [← hfront, List.map_append]
      exact List.mem_append_right _ hx
    rw [htakes.terminals] at hterminals
    exact List.append_cancel_right hterminals
  have hkinds : ∀ u ∈ own,
      u.kind = .identifier ∨ u.kind = .openBracket ∨ u.kind = .closeBracket := by
    intro u hu
    apply Ty.kind_of_mem_terminals (x := u.terminal)
    rw [← hown]
    exact List.mem_map_of_mem hu
  have hbody : ∀ u ∈ own, u.kind ≠ .endOfText := by
    intro u hu
    rcases hkinds u hu with hk | hk | hk <;> rw [hk] <;> decide
  have hfirst := htakes.head?_eq hne
  obtain ⟨last, hlast⟩ := Option.ne_none_iff_exists'.1 (List.getLast?_eq_none_iff.not.2 hne)
  rw [← hfront, htakes.tokens] at h
  obtain ⟨before, written, rest, hsource, hbefore, hscans, hstart, hstop⟩ :=
    Token.exists_text_of_scan h hbody hfirst hlast
  rw [tokenize, hsource] at h
  have hscan := hbefore.scan_rest h
  have hrest := hscans.scan_rest hscan
  rw [Nat.zero_add] at hscan hrest hstart hstop
  refine ⟨before, written, rest, hsource, htakes.tokens.symm ▸ hscan, hrest, ?_, ?_⟩
  · rw [Parser.span_of_run_type rfl hended hread, htakes.previousEnd_eq hlast, hstop,
      Cursor.start, hstart]
    rfl
  · rw [hscans.bare hkinds, t.toList_name, ← hown, List.flatMap_map]
    rfl

/-- Types with the same name are the same. -/
theorem Ty.name_injective {t u : Ty} (h : t.name = u.name) : t = u := by
  obtain ⟨tokens, node, c, htokens, hread, -, ht⟩ := solve_name t none
  obtain ⟨tokens', node', c', htokens', hread', -, hu⟩ := solve_name u none
  rw [← h] at htokens' hread'
  cases htokens.symm.trans htokens'
  cases hread.symm.trans hread'
  exact Except.ok.inj (ht.symm.trans hu)

/-- The name of a type is read back as the type. Wherever a type is read in a source, what stands
there is its name, but for blanks and comments. Types with one name are the same. -/
theorem annotation_roundTrip :
    (∀ (t : Ty) (file : Option String), ∃ tokens node c, tokenize t.name file = .ok tokens ∧
      (⟨.standard, t.name.toList⟩ : Parser).solve (.type .default) (.ofTokens tokens) =
        .ok node c ∧ c.terminals = [.endOfText] ∧ node.toType = .ok t) ∧
    (∀ {source : String} {file : Option String} {tokens : List Token} {c c' : Cursor} {n : Nat}
      {node : Node} {t : Ty}, tokenize source file = .ok tokens → c.tokens <:+ tokens →
      (⟨.standard, source.toList⟩ : Parser).run n (.type .default) c = .ok node c' →
      node.toType = .ok t →
      ∃ before written rest, source.toList = before ++ (written ++ rest) ∧
        Token.scan (file.getD Token.defaultFile) (Text.byteLength before) (written ++ rest) =
          .ok c.tokens ∧
        Token.scan (file.getD Token.defaultFile)
          (Text.byteLength before + Text.byteLength written) rest = .ok c'.tokens ∧
        node.span = .covering (file.getD Token.defaultFile) (Text.byteLength before)
          (Text.byteLength written) ∧
        Text.bare written = t.name.toList) ∧
    ∀ t u : Ty, t = u ↔ t.name = u.name :=
  ⟨solve_name, exists_annotation, fun _ _ => ⟨congrArg Ty.name, Ty.name_injective⟩⟩

/-- A comment between the brackets does not count, whatever it says. -/
theorem annotation_roundTrip_commented :
    ∃ before written rest, "x: num [//[]\n ] = y".toList = before ++ (written ++ rest) ∧
      Text.bare written = "num[]".toList := by
  let front : List Token :=
    [⟨.identifier, "x", .covering "shell" 0 1⟩, ⟨.colon, ":", .covering "shell" 1 1⟩]
  let place : Cursor := ⟨none, ⟨.identifier, "num", .covering "shell" 3 3⟩,
    [⟨.openBracket, "[", .covering "shell" 7 1⟩, ⟨.closeBracket, "]", .covering "shell" 14 1⟩,
      ⟨.assignment, "=", .covering "shell" 16 1⟩, ⟨.identifier, "y", .covering "shell" 18 1⟩,
      .endOfText ⟨19, "shell"⟩]⟩
  have htokens : tokenize "x: num [//[]\n ] = y" none = .ok (front ++ place.tokens) := by
    decide +kernel
  have hread : ∃ node c', (⟨.standard, "x: num [//[]\n ] = y".toList⟩ : Parser).run 1
      (.type .default) place = .ok node c' ∧ node.toType = .ok (.array .num) := ⟨_, _, rfl, rfl⟩
  obtain ⟨node, c', hread, ht⟩ := hread
  obtain ⟨before, written, rest, hsource, -, -, -, hbare⟩ :=
    annotation_roundTrip.2.1 htokens (List.suffix_append ..) hread ht
  exact ⟨before, written, rest, hsource, hbare⟩

end Scriptlet
