import Scriptlet.Proofs.SyntaxTree.Lockstep
import Scriptlet.Proofs.SyntaxTree.Recognition

/-!
What a tree is made of. The tokens that the parser takes for a node are the leaves below it, in
order, and signs and words that leave no trace. An interior node begins with one of its tokens and
ends with one. Parentheses around an expression are no part of it; of an operation that goes on after
them the closing one is.
-/

namespace Scriptlet

open ParseM

/-- The rules of the leaves that a token may become. Only a name has a choice; punctuation and
reserved words become none. -/
def TokenKind.leafRules : TokenKind → List Rule
  | identifier => [.id, .type]
  | number => [.num]
  | string => [.str]
  | trueWord => [.true]
  | falseWord => [.false]
  | plus | dash | star | slash | percent | starStar | bang | equals | notEquals | less | lessEquals
  | greater | greaterEquals => [.op]
  | _ => []

/-- The kinds of the tokens inside a source that leave no trace in its tree. -/
def TokenKind.isDropped (k : TokenKind) : Bool := k ≠ .endOfText && k.leafRules.isEmpty

theorem TokenKind.mem_leafRules_of_atomRule? {k : TokenKind} {rule : Rule}
    (h : k.atomRule? = some rule) : rule ∈ k.leafRules := by
  cases k <;> cases h <;> exact List.mem_cons_self

/-- The nodes are made of the tokens. -/
inductive Covers (p : Parser) : List Token → List Node → Prop where
  | nil : Covers p [] []
  | drop : t.kind.leafRules = [] → Covers p ts ns → Covers p (t :: ts) ns
  | leaf : rule ∈ t.kind.leafRules → Covers p ts ns → Covers p (t :: ts) (ParseM.leaf rule t :: ns)
  | branch : rule.isLeaf = false → Covers p us children → us.head? = some first →
      us.getLast? = some last → Covers p ts ns →
      Covers p (us ++ ts)
        (⟨rule, p.textBetween first.span.start.offset.toNat last.span.stop.offset.toNat,
          ⟨first.span.start, last.span.stop⟩, children⟩ :: ns)

namespace Covers

variable {p : Parser} {c : Cursor} {rule : Rule} {first : Token} {ts us : List Token} {n : Node}
  {ns ms : List Node}

/-- What covers two parts covers the two as one. -/
theorem append (h : Covers p ts ns) (h' : Covers p us ms) : Covers p (ts ++ us) (ns ++ ms) := by
  induction h with
  | nil => exact h'
  | drop ht _ ih => exact .drop ht ih
  | leaf hrule _ ih => exact .leaf hrule ih
  | branch hrule hinner hfirst hlast _ _ ih =>
    rw [List.append_assoc]
    exact .branch hrule hinner hfirst hlast ih

/-- Before the first node there is nothing but what leaves no trace. -/
theorem exists_first (h : Covers p ts (n :: ns)) : ∃ before rest first, ts = before ++ rest ∧
    Covers p before [] ∧ rest.head? = some first ∧ first.span.start = n.start ∧
    Covers p rest (n :: ns) := by
  generalize hms : n :: ns = ms at h
  induction h with
  | nil => cases hms
  | drop ht _ ih =>
    obtain ⟨before, rest, first, rfl, hbefore, hfirst, hstart, h⟩ := ih hms
    exact ⟨_, rest, first, rfl, .drop ht hbefore, hfirst, hstart, h⟩
  | leaf hrule h =>
    cases hms
    exact ⟨[], _, _, rfl, .nil, rfl, rfl, .leaf hrule h⟩
  | branch hrule hinner hfirst hlast h =>
    cases hms
    exact ⟨[], _, _, rfl, .nil, List.mem_head?_append_of_mem_head? hfirst, rfl,
      .branch hrule hinner hfirst hlast h⟩

/-- The nodes become the parts of one, if its last token is the one before the cursor. -/
theorem nodeTo (h : Covers p ts ns) (hrule : rule.isLeaf = false) (hfirst : ts.head? = some first)
    (hend : ∀ last, ts.getLast? = some last → c.previousEnd = last.span.stop) :
    Covers p ts [p.nodeTo rule first.span.start ns c] := by
  obtain ⟨rest, rfl⟩ := List.head?_eq_some_iff.1 hfirst
  have hlast : (first :: rest).getLast? = _ := List.getLast?_cons
  have hnode := Covers.branch hrule h hfirst hlast .nil
  rw [List.append_nil] at hnode
  rwa [Parser.nodeTo, hend _ hlast]

end Covers

/-! ## Taking tokens -/

namespace Cursor

variable {p : Parser} {c c' c₁ c₂ : Cursor} {t : Token} {ts us : List Token} {ns ms : List Node}
  {left : Node} {rule : Rule} {k : TokenKind}

/-- What is left to read. -/
def tokens (c : Cursor) : List Token := c.current :: c.upcoming

/-- The tokens are taken on the way from `c` to `c'`. -/
structure Takes (c : Cursor) (ts : List Token) (c' : Cursor) : Prop where
  tokens : c.tokens = ts ++ c'.tokens
  previousEnd : c'.previousEnd? = (ts.getLast?.map (·.span.stop)).or c.previousEnd?
  ended : c'.Ended

/-- A token that does not end the text can be taken. -/
theorem Ended.takes (h : c.Ended) (hk : c.kind ≠ .endOfText) : c.Takes [c.current] c.next := by
  refine ⟨?_, ?_, (h.take rfl hk).2⟩
  all_goals
    have ht := (h.take rfl hk).1
    obtain ⟨previous, current, _ | ⟨u, us⟩⟩ := c
    · cases ht
    · rfl

theorem Takes.refl (h : c.Ended) : c.Takes [] c := ⟨rfl, rfl, h⟩

theorem Takes.trans (h : c.Takes ts c₁) (h' : c₁.Takes us c') : c.Takes (ts ++ us) c' := by
  refine ⟨?_, ?_, h'.ended⟩
  · rw [h.tokens, h'.tokens, List.append_assoc]
  · rw [h'.previousEnd, h.previousEnd, List.getLast?_append, Option.map_or, Option.or_assoc]

/-- The cursor remembers the end of the last token that it took. -/
theorem Takes.previousEnd_eq (h : c.Takes ts c') (ht : ts.getLast? = some t) :
    c'.previousEnd = t.span.stop := by
  rw [Cursor.previousEnd, h.previousEnd, ht]
  rfl

theorem Takes.head?_eq (h : c.Takes ts c') (hne : ts ≠ []) : ts.head? = some c.current := by
  have htokens := congrArg List.head? h.tokens
  rwa [List.head?_append_of_ne_nil _ hne, eq_comm] at htokens

/-- On the way from `c` to `c'` tokens are taken that make the nodes, perhaps none. -/
def ReadsAny (p : Parser) (c : Cursor) (ns : List Node) (c' : Cursor) : Prop :=
  ∃ ts, c.Takes ts c' ∧ Covers p ts ns

/-- On the way from `c` to `c'` tokens are taken that make the nodes, and one at least. -/
def Reads (p : Parser) (c : Cursor) (ns : List Node) (c' : Cursor) : Prop :=
  ∃ ts, ts ≠ [] ∧ c.Takes ts c' ∧ Covers p ts ns

/-- A token that leaves no leaf is taken without a node. -/
theorem Ended.drop (hc : c.Ended) (hk : c.kind = k) (hdrop : k.isDropped = true) :
    c.Reads p [] c.next := by
  subst hk
  have h : c.kind ≠ .endOfText ∧ c.kind.leafRules = [] := by
    simpa [TokenKind.isDropped] using hdrop
  exact ⟨_, List.cons_ne_nil _ _, hc.takes h.1, .drop h.2 .nil⟩

/-- A token that leaves a leaf is covered by it. -/
theorem Ended.leaf (hc : c.Ended) (hrule : rule ∈ c.kind.leafRules) :
    c.Reads p [ParseM.leaf rule c.current] c.next := by
  refine ⟨_, List.cons_ne_nil _ _, hc.takes ?_, .leaf hrule .nil⟩
  intro hk
  rw [hk] at hrule
  cases hrule

theorem ReadsAny.refl (hc : c.Ended) : c.ReadsAny p [] c := ⟨[], .refl hc, .nil⟩

theorem Reads.any (h : c.Reads p ns c') : c.ReadsAny p ns c' := by
  obtain ⟨ts, -, h⟩ := h
  exact ⟨ts, h⟩

theorem Reads.ended (h : c.Reads p ns c') : c'.Ended := by
  obtain ⟨_, -, h, -⟩ := h
  exact h.ended

/-- One reading after the other. -/
theorem Reads.append (h : c.Reads p ns c₁) (h' : c₁.ReadsAny p ms c') :
    c.Reads p (ns ++ ms) c' := by
  obtain ⟨ts, hne, htakes, hcovers⟩ := h
  obtain ⟨us, htakes', hcovers'⟩ := h'
  exact ⟨ts ++ us, List.append_ne_nil_of_left_ne_nil hne us, htakes.trans htakes',
    hcovers.append hcovers'⟩

theorem Reads.drop (h : c.Reads p ns c') (hk : c'.kind = k) (hdrop : k.isDropped = true) :
    c.Reads p ns c'.next := by
  have := h.append (h.ended.drop hk hdrop).any
  rwa [List.append_nil] at this

theorem Reads.leaf (h : c.Reads p ns c') (hrule : rule ∈ c'.kind.leafRules) :
    c.Reads p (ns ++ [ParseM.leaf rule c'.current]) c'.next :=
  h.append (h.ended.leaf hrule).any

/-- What is read becomes the parts of one node that begins where reading began. -/
theorem Reads.branch (h : c.Reads p ns c') (hrule : rule.isLeaf = false) :
    c.Reads p [p.nodeTo rule c.start ns c'] c' := by
  obtain ⟨ts, hne, htakes, hcovers⟩ := h
  refine ⟨ts, hne, htakes, hcovers.nodeTo hrule (htakes.head?_eq hne) fun _ hlast => ?_⟩
  exact htakes.previousEnd_eq hlast

/-- What is read continues a node: both become the parts of one that begins where that one does. -/
theorem Reads.extend (hleft : c.Reads p [left] c₁) (h : c₁.Reads p ns c')
    (hrule : rule.isLeaf = false) :
    c.Reads p [p.nodeTo rule left.start (left :: ns) c'] c' := by
  obtain ⟨us, hne, htakes, hcovers⟩ := h
  obtain ⟨ts, -, hleft, hcovers'⟩ := hleft
  obtain ⟨before, rest, first, rfl, hbefore, hfirst, hstart, hrest⟩ := hcovers'.exists_first
  have hall := hleft.trans htakes
  rw [List.append_assoc] at hall
  have hnode : Covers p (rest ++ us) [p.nodeTo rule first.span.start (left :: ns) c'] := by
    refine (hrest.append hcovers).nodeTo hrule (List.mem_head?_append_of_mem_head? hfirst) ?_
    exact fun last hlast => hall.previousEnd_eq (List.mem_getLast?_append_of_mem_getLast? hlast)
  rw [← hstart]
  exact ⟨_, by simp [hne], hall, hbefore.append hnode⟩

end Cursor

/-! ## Goals -/

/-- Whatever `solve` reads for a goal is a node made of the tokens that are taken. -/
def Covering (p : Parser) (solve : Goal → ParseM Node) : Prop :=
  ∀ goal : Goal, ∀ {c n c'}, c.Ended → solve goal c = .ok n c' → c.Reads p [n] c'

section

variable {p : Parser} {solve : Goal → ParseM Node} {c c' c₀ c₁ : Cursor} {node left : Node}
  {ns : List Node}

theorem Cursor.Reads.goal {g : Goal} (h : c.Reads p ns c₁) (hs : Covering p solve)
    (hn : solve g c₁ = .ok node c') : c.Reads p (ns ++ [node]) c' :=
  h.append (hs g h.ended hn).any

/-- The items of a list cover its tokens, and the commas are dropped. -/
theorem reads_separated {item : ParseM Node} {nodes : List Node}
    (hitem : ∀ {c node c'}, c.Ended → item c = .ok node c' → c.Reads p [node] c') (hc : c.Ended)
    (h : Parser.ReadsSeparated item c nodes c') : c.Reads p nodes c' := by
  induction h with
  | one hn => exact hitem hc hn
  | more hn hk _ ih =>
    have hcomma := (hitem hc hn).drop hk rfl
    exact hcomma.append (ih hcomma.ended).any

theorem reads_exprList (hs : Covering p solve) {close : TokenKind} {nodes : List Node}
    (hclose : close.isDropped = true) (hc : c.Ended)
    (h : Parser.exprList solve close c = .ok nodes c') : c.Reads p nodes c' := by
  rcases Parser.exprList_eq_ok.1 h with ⟨hk, rfl, rfl⟩ | ⟨-, items, c₁, hi, hk, rfl, rfl⟩
  · exact hc.drop hk hclose
  · have hitems := reads_separated (hs _) hc (Parser.readsSeparated_of_commaSeparated hi)
    exact hitems.drop hk hclose

/-! ## Expressions and types -/

/-- All constructs of the family are made of the tokens that are taken for them. -/
structure Operators.Covering (p : Parser) (solve : Goal → ParseM Node) (ops : Operators) :
    Prop where
  leading : ∀ {c c' l node}, c.Ended → ops.leading c.kind = some l →
    p.leading solve l c = .ok node c' → c.Reads p [node] c'
  trailing : ∀ {c₀ c c' : Cursor} {left t node}, c₀.Reads p [left] c →
    ops.trailing c.kind = some t → p.trailing solve left (ops.power c.kind) t c = .ok node c' →
    c₀.Reads p [node] c'

/-- The loop over operators, from the first operand on. -/
theorem Operators.Covering.continues {ops : Operators} (hops : ops.Covering p solve)
    {power : Power} (hleft : c₀.Reads p [left] c)
    (h : p.Continues solve ops power left c node c') : c₀.Reads p [node] c' := by
  induction h with
  | done => exact hleft
  | next _ ht hn _ ih => exact ih (hops.trailing hleft ht hn)

theorem Operators.Covering.operand {ops : Operators} (hops : ops.Covering p solve) {power : Power}
    (hc : c.Ended) (h : p.operand solve ops power c = .ok node c') : c.Reads p [node] c' := by
  obtain ⟨l, hl, first, c₁, hf, h⟩ := Parser.operand_eq_ok.1 h
  exact hops.continues (hops.leading hc hl hf) (Parser.continues_of_extend h)

/-- What begins an expression covers its tokens. Brackets leave no leaf. -/
theorem reads_leading (hs : Covering p solve) {l : Leading} (hc : c.Ended)
    (hl : Operators.expressions.leading c.kind = some l) (h : p.leading solve l c = .ok node c') :
    c.Reads p [node] c' := by
  rcases Operators.leading_expressions hl with ⟨rfl, -⟩ | ⟨rfl, hk⟩ | ⟨rfl, hk⟩ | ⟨rfl, hk⟩
  · obtain ⟨rule, hr, rfl, rfl⟩ := Parser.primary_eq_ok.1 h
    exact hc.leaf (TokenKind.mem_leafRules_of_atomRule? hr)
  · obtain ⟨operand, c₁, ho, rfl, rfl⟩ := Parser.unary_eq_ok.1 h
    have hop : Rule.op ∈ c.kind.leafRules := by rcases hk with hk | hk <;> rw [hk] <;> decide
    exact ((hc.leaf hop).goal hs ho).branch rfl
  · obtain ⟨inner, c₁, hi, hk', rfl, rfl⟩ := Parser.grouping_eq_ok.1 h
    exact ((hc.drop hk rfl).goal hs hi).drop hk' rfl
  · obtain ⟨elements, c₁, he, rfl, rfl⟩ := Parser.array_eq_ok.1 h
    have hopen := hc.drop (p := p) hk rfl
    exact (hopen.append (reads_exprList hs rfl hopen.ended he).any).branch rfl

theorem reads_binary (hs : Covering p solve) {q : Power} (hleft : c₀.Reads p [left] c)
    (hop : Rule.op ∈ c.kind.leafRules) (h : p.binary solve left q c = .ok node c') :
    c₀.Reads p [node] c' := by
  obtain ⟨right, c₁, hr, rfl, rfl⟩ := Parser.binary_eq_ok.1 h
  exact hleft.extend ((hleft.ended.leaf hop).goal hs hr) rfl

/-- The token of a trailing construct is an operator, or opens a list or an index. -/
theorem Operators.leafRules_of_trailing {k : TokenKind} {t : Trailing}
    (h : expressions.trailing k = some t) :
    ((t = .binary ∨ t = .comparison ∨ t = .exponent) ∧ Rule.op ∈ k.leafRules) ∨
      (t = .call ∧ k = .openParen) ∨ (t = .subscript ∧ k = .openBracket) := by
  cases k <;> cases h <;> simp [TokenKind.leafRules]

/-- An operator after an operand covers its sign and what follows it. -/
theorem reads_trailing (hs : Covering p solve) {q : Power} {t : Trailing}
    (hleft : c₀.Reads p [left] c) (ht : Operators.expressions.trailing c.kind = some t)
    (h : p.trailing solve left q t c = .ok node c') : c₀.Reads p [node] c' := by
  rcases Operators.leafRules_of_trailing ht with ⟨ht, hop⟩ | ⟨rfl, hk⟩ | ⟨rfl, hk⟩
  · rcases ht with rfl | rfl | rfl
    · exact reads_binary hs hleft hop h
    · exact reads_binary hs hleft hop (Parser.comparison_eq_ok.1 h).1
    · exact reads_binary hs hleft hop h
  · obtain ⟨-, arguments, c₁, ha, rfl, rfl⟩ := Parser.call_eq_ok.1 h
    have hopen := hleft.ended.drop (p := p) hk rfl
    exact hleft.extend (hopen.append (reads_exprList hs rfl hopen.ended ha).any) rfl
  · obtain ⟨index, c₁, hi, hk', rfl, rfl⟩ := Parser.subscript_eq_ok.1 h
    exact hleft.extend (((hleft.ended.drop hk rfl).goal hs hi).drop hk' rfl) rfl

theorem covering_expressions (hs : Covering p solve) : Operators.expressions.Covering p solve :=
  ⟨reads_leading hs, reads_trailing hs⟩

theorem covering_types : Operators.types.Covering p solve where
  leading := by
    intro c c' l node hc hl h
    cases Operators.leading_types hl
    obtain ⟨hk, rfl, rfl⟩ := Parser.namedType_eq_ok.1 h
    exact hc.leaf (by rw [hk]; decide)
  trailing := by
    intro c₀ c c' left t node hleft ht h
    cases Operators.trailing_types ht
    obtain ⟨hk, hk', rfl, rfl⟩ := Parser.arrayType_eq_ok.1 h
    exact hleft.extend ((hleft.ended.drop hk rfl).drop hk' rfl) rfl

/-! ## Statements -/

theorem reads_param (hs : Covering p solve) (hc : c.Ended) (h : p.param solve c = .ok node c') :
    c.Reads p [node] c' := by
  obtain ⟨hk, hk', type, c₁, ht, rfl, rfl⟩ := Parser.param_eq_ok.1 h
  have hname : Rule.id ∈ c.kind.leafRules := by rw [hk]; decide
  exact (((hc.leaf hname).drop hk' rfl).goal hs ht).branch rfl

theorem reads_params (hs : Covering p solve) (hc : c.Ended) (h : p.params solve c = .ok node c') :
    c.Reads p [node] c' := by
  obtain ⟨hk, h⟩ := Parser.params_eq_ok.1 h
  have hopen := hc.drop (p := p) hk rfl
  rcases h with ⟨hk', rfl, rfl⟩ | ⟨-, items, c₁, hi, hk', rfl, rfl⟩
  · exact (hopen.drop hk' rfl).branch rfl
  · have hitems := reads_separated (reads_param hs) hopen.ended
      (Parser.readsSeparated_of_commaSeparated hi)
    exact ((hopen.append hitems.any).drop hk' rfl).branch rfl

theorem reads_statements (hs : Covering p solve) {close : TokenKind} {nodes : List Node}
    (hc : c.Ended) (h : Parser.ReadsUntil close (solve .stmt) c nodes c') :
    c.ReadsAny p nodes c' := by
  induction h with
  | done => exact .refl hc
  | next hn _ ih =>
    have hnode := hs .stmt hc hn
    exact (hnode.append (ih hnode.ended)).any

theorem reads_block (hs : Covering p solve) (hc : c.Ended) (h : p.block solve c = .ok node c') :
    c.Reads p [node] c' := by
  obtain ⟨hk, statements, c₁, hb, hk', rfl, rfl⟩ := Parser.block_eq_ok.1 h
  have hopen := hc.drop (p := p) hk rfl
  have hbody := reads_statements hs hopen.ended (Parser.readsUntil_of_untilClosed hb)
  exact ((hopen.append hbody).drop hk' rfl).branch rfl

/-- A statement that a reserved word begins. -/
theorem reads_keyword (hs : Covering p solve) {l : Leading} (hc : c.Ended)
    (hl : Grammar.standard.statement c.kind = some l) (h : p.leading solve l c = .ok node c') :
    c.Reads p [node] c' := by
  generalize hk : c.kind = k at hl
  cases k <;> cases hl
  case letWord =>
    obtain ⟨hk₁, hk₂, initializer, c₁, hi, hk₃, rfl, rfl⟩ := Parser.declaration_eq_ok.1 h
    have hname : Rule.id ∈ c.next.kind.leafRules := by rw [hk₁]; decide
    exact (((((hc.drop hk rfl).leaf hname).drop hk₂ rfl).goal hs hi).drop hk₃ rfl).branch rfl
  case printWord =>
    obtain ⟨hk₁, argument, c₁, ha, hk₂, hk₃, rfl, rfl⟩ := Parser.print_eq_ok.1 h
    exact (((((hc.drop hk rfl).drop hk₁ rfl).goal hs ha).drop hk₂ rfl).drop hk₃ rfl).branch rfl
  case whileWord =>
    obtain ⟨test, c₁, ht, hk₁, body, c₂, hb, rfl, rfl⟩ := Parser.loop_eq_ok.1 h
    have hhead := ((hc.drop hk rfl).goal hs ht).drop hk₁ rfl
    exact (hhead.append (reads_block hs hhead.ended hb).any).branch rfl
  case returnWord =>
    rcases Parser.result_eq_ok.1 h with ⟨hk₁, rfl, rfl⟩ | ⟨-, value, c₁, hv, hk₁, rfl, rfl⟩
    · exact ((hc.drop hk rfl).drop hk₁ rfl).branch rfl
    · exact (((hc.drop hk rfl).goal hs hv).drop hk₁ rfl).branch rfl
  case funWord =>
    obtain ⟨hk₁, params, c₁, hps, type, c₂, htype, hk₂, body, c₃, hb, rfl, rfl⟩ :=
      Parser.function_eq_ok.1 h
    have hid : Rule.id ∈ c.next.kind.leafRules := by rw [hk₁]; decide
    have hname := (hc.drop (p := p) hk rfl).leaf hid
    have hparams := hname.append (reads_params hs hname.ended hps).any
    have hhead : c.Reads p (leaf .id c.next.current :: params :: type) c₂ := by
      rcases htype with ⟨ha, t, c₃, ht, rfl, rfl⟩ | ⟨-, rfl, rfl⟩
      · exact (hparams.drop ha rfl).goal hs ht
      · exact hparams
    have hcolon := hhead.drop hk₂ rfl
    exact (hcolon.append (reads_block hs hcolon.ended hb).any).branch rfl

theorem reads_simpleStatement (hs : Covering p solve) (hc : c.Ended)
    (h : p.simpleStatement solve c = .ok node c') : c.Reads p [node] c' := by
  obtain ⟨expr, c₁, he, h⟩ := Parser.simpleStatement_eq_ok.1 h
  have hexpr := hs _ hc he
  rcases h with ⟨hk, -, source, c₂, hsource, hk', rfl, rfl⟩ | ⟨-, -, hk, rfl, rfl⟩
  · exact hexpr.extend (((hexpr.ended.drop hk rfl).goal hs hsource).drop hk' rfl) rfl
  · exact hexpr.extend (hexpr.ended.drop hk rfl) rfl

end

/-! ## All goals -/

namespace Parser

/-- One level of the parser covers its tokens if the levels below do. -/
theorem covering_step {p : Parser} (hp : p.grammar = .standard) {solve : Goal → ParseM Node}
    (hs : Covering p solve) : Covering p (p.step solve) := by
  intro goal c n c' hc h
  cases goal with
  | expr power =>
    rw [step, hp] at h
    exact (covering_expressions hs).operand hc h
  | type power =>
    rw [step, hp] at h
    exact covering_types.operand hc h
  | stmt =>
    rcases statement_eq_ok.1 h with ⟨l, hl, h⟩ | ⟨-, h⟩
    · exact reads_keyword hs hc (hp ▸ hl) h
    · exact reads_simpleStatement hs hc h

/-- The tokens of every goal are covered by the node that is read. -/
theorem covering_run {p : Parser} (hp : p.grammar = .standard) (n : Nat) :
    Covering p (p.run n) := by
  induction n with
  | zero =>
    intro goal c n c' _ h
    simp [run, tooDeep_apply] at h
  | succ n ih => exact covering_step hp ih

end Parser

/-- A whole program is made of the tokens before `last`. It begins where the source does and ends
with the last of them, or at `last` if there are none. -/
structure CoversAll (p : Parser) (body : List Token) (last : Token) (tree : Node) : Prop where
  rule : tree.rule = .program
  children : Covers p body tree.children
  start : tree.span.start.offset = 0
  stop : tree.span.stop = (body.getLast?.map (·.span.stop)).getD last.span.start
  text : tree.text = p.textBetween 0 tree.span.stop.offset.toNat

theorem Cursor.previousEnd?_ofTokens (tokens : List Token) :
    (ofTokens tokens).previousEnd? = none := by
  cases tokens <;> rfl

/-- The tree of a source is made of all of its tokens but the one that ends the text. -/
theorem coversAll_of_parse {tokens : List Token} {source : String} {tree : Node}
    (h : EndsOnce tokens) (hp : parse tokens source = .ok tree) :
    ∃ body last, tokens = body ++ [last] ∧ last.kind = .endOfText ∧
      (∀ t ∈ body, t.kind ≠ .endOfText) ∧
      CoversAll ⟨.standard, source.toList⟩ body last tree := by
  obtain ⟨c, hprogram⟩ := parse_eq_ok.1 hp
  obtain ⟨statements, hstatements, rfl⟩ := Parser.program_eq_ok.1 hprogram
  have hloop := Parser.readsUntil_of_untilEnd hstatements
  have hk := hloop.kind_eq
  obtain ⟨ts, htakes, hcovers⟩ :=
    reads_statements (Parser.covering_run rfl _) h.ended_ofTokens hloop
  have htokens : tokens = ts ++ c.tokens := h.tokens_ofTokens.symm.trans htakes.tokens
  have hrest : c.upcoming.map Token.terminal = [] :=
    h.eq_singleton ⟨ts.map Token.terminal, by rw [htokens, List.map_append]; rfl⟩ hk
  rw [Cursor.tokens, List.map_eq_nil_iff.1 hrest] at htokens
  obtain ⟨body, last, hbody, hlast, hkinds⟩ := h
  obtain ⟨rfl, hcurrent⟩ := List.append_inj' (hbody.symm.trans htokens) rfl
  cases hcurrent
  refine ⟨body, c.current, hbody, hlast, hkinds, rfl, hcovers, rfl, ?_, rfl⟩
  show c.previousEnd = _
  rw [Cursor.previousEnd, htakes.previousEnd, Cursor.previousEnd?_ofTokens, Option.or_none]
  rfl

/-! ## Leaves -/

namespace Node

mutual

/-- The leaves of the tree, from left to right. -/
def leaves : Node → List Node
  | ⟨rule, text, span, children⟩ =>
    if rule.isLeaf then [⟨rule, text, span, children⟩] else leavesOf children

def leavesOf : List Node → List Node
  | [] => []
  | n :: ns => n.leaves ++ leavesOf ns

end

theorem leaves_of_isLeaf {n : Node} (h : n.rule.isLeaf = true) : n.leaves = [n] := by
  obtain ⟨rule, text, span, children⟩ := n
  rw [leaves, if_pos h]

theorem leaves_of_not_isLeaf {n : Node} (h : n.rule.isLeaf = false) :
    n.leaves = leavesOf n.children := by
  obtain ⟨rule, text, span, children⟩ := n
  rw [leaves, if_neg (by simpa using h)]

end Node

/-- The node is a leaf for the token: its rule is one that the kind allows, and it keeps the value
and the place. -/
structure Token.HasLeaf (t : Token) (n : Node) : Prop where
  rule : n.rule ∈ t.kind.leafRules
  text : n.text = t.value
  span : n.span = t.span
  children : n.children = []

theorem TokenKind.isLeaf_of_mem_leafRules {k : TokenKind} {rule : Rule} (h : rule ∈ k.leafRules) :
    rule.isLeaf = true := by
  revert h
  cases k <;> cases rule <;> decide

/-- The leaves of the nodes are those of the tokens, in their order. -/
theorem Covers.leaves {p : Parser} {ts : List Token} {ns : List Node} (h : Covers p ts ns) :
    List.Forall₂ Token.HasLeaf (ts.filter (·.kind.leafRules ≠ [])) (Node.leavesOf ns) := by
  induction h with
  | nil => exact .nil
  | drop ht _ ih => rwa [List.filter_cons_of_neg (by simp [ht])]
  | leaf hrule _ ih =>
    rw [List.filter_cons_of_pos (by simpa using List.ne_nil_of_mem hrule), Node.leavesOf,
      Node.leaves_of_isLeaf (TokenKind.isLeaf_of_mem_leafRules hrule)]
    exact .cons ⟨hrule, rfl, rfl, rfl⟩ ih
  | branch hrule _ _ _ _ ihinner ih =>
    rw [List.filter_append, Node.leavesOf, Node.leaves_of_not_isLeaf hrule]
    exact List.rel_append ihinner ih

/-- No token is lost, doubled or moved: the leaves of a tree, from left to right, are the names,
literals and operators of the source, each with its value and place. -/
theorem leaves_of_parse {source : String} {file : Option String} {tokens : List Token} {tree : Node}
    (ht : tokenize source file = .ok tokens) (hp : parse tokens source = .ok tree) :
    List.Forall₂ Token.HasLeaf (tokens.filter (·.kind.leafRules ≠ [])) tree.leaves := by
  obtain ⟨body, last, rfl, hlast, -, htree⟩ := coversAll_of_parse (tokenize_coherent ht).1 hp
  have hend : [last].filter (·.kind.leafRules ≠ []) = [] := by simp [hlast, TokenKind.leafRules]
  rw [List.filter_append, hend, List.append_nil,
    Node.leaves_of_not_isLeaf (by rw [htree.rule]; rfl)]
  exact htree.children.leaves

/-- Parentheses around an operand and around a body, a comment and two kinds of names. -/
def groupedSource : String :=
  "fun f(a: num[]): (// c\n return (-a[0] + \"é\") * (2);) print(f([1]));"

theorem leaves_groupedSource : ∃ tokens tree, tokenize groupedSource none = .ok tokens ∧
    parse tokens groupedSource = .ok tree ∧
    tree.leaves.map (·.text) =
      ["f", "a", "num", "-", "a", "0", "+", "é", "*", "2", "f", "1"] ∧
    List.Forall₂ Token.HasLeaf (tokens.filter (·.kind.leafRules ≠ [])) tree.leaves := by
  have hread : (tokenize groupedSource none >>= fun tokens =>
      parse tokens groupedSource).toOption.any (fun tree => tree.leaves.map (·.text) =
        ["f", "a", "num", "-", "a", "0", "+", "é", "*", "2", "f", "1"]) = true := by decide +kernel
  obtain ⟨tree, htree, htexts⟩ := Outcome.exists_ok_of_any hread
  obtain ⟨tokens, ht, hp⟩ := Outcome.exceptBind_eq_ok.1 htree
  exact ⟨tokens, tree, ht, hp, htexts, leaves_of_parse ht hp⟩

end Scriptlet
