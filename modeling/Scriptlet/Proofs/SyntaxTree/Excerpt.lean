import Scriptlet.Proofs.SyntaxTree.Balance
import Scriptlet.Proofs.SyntaxTree.Spans
import Scriptlet.Proofs.Token.Slices

/-!
The texts of expressions. An interior node keeps the text from its first token to its last, and a
node that continues an operand begins where the operand does: inside the parentheses around it. So
the text may close parentheses that it does not open. With these opened in front, and in no other
case, the text is read back as the tree of the node.
-/

namespace Scriptlet

/-! ## Texts between tokens -/

/-- A piece of the source, from the lengths in front of it and behind it. -/
theorem Parser.textBetween_append {p : Parser} {taken text rest : List Char}
    (h : p.source = taken ++ (text ++ rest)) :
    p.textBetween (Text.byteLength taken) (Text.byteLength taken + Text.byteLength text) =
      String.ofList text := by
  have hsize : Text.byteLength p.source =
      Text.byteLength taken + (Text.byteLength text + Text.byteLength rest) := by
    rw [h, Text.byteLength_append, Text.byteLength_append]
  have hmin : min (Text.byteLength taken) (Text.byteLength p.source) = Text.byteLength taken := by
    omega
  have hmax : max (Text.byteLength taken) (min (Text.byteLength taken + Text.byteLength text)
      (Text.byteLength p.source)) = Text.byteLength taken + Text.byteLength text := by
    omega
  rw [textBetween]
  simp only [hmin, hmax]
  rw [h, Text.slice?_append, Option.getD_some]

/-- The text between tokens is scanned as the tokens that stand there. -/
theorem terminals?_textBetween {source : String} {file : Option String} {p : Parser}
    {before own after : List Token} {first last : Token} (hp : p.source = source.toList)
    (hsize : Text.byteLength source.toList < UInt32.size)
    (h : tokenize source file = .ok (before ++ (own ++ after)))
    (hown : ∀ t ∈ own, t.kind ≠ .endOfText) (hfirst : own.head? = some first)
    (hlast : own.getLast? = some last) :
    terminals? (p.textBetween first.span.lower last.span.upper).toList =
      some (own.map Token.terminal ++ [.endOfText]) := by
  obtain ⟨taken, text, rest, hcs, -, hscans, hstart, hstop⟩ :=
    Token.exists_text_of_scan h hown hfirst hlast
  simp only [hcs, Text.byteLength_append] at hsize
  have hlower : first.span.lower = Text.byteLength taken := by
    rw [Span.lower, hstart, Nat.zero_add]
    exact UInt32.toNat_ofNat_of_lt' (by omega)
  have hupper : last.span.upper = Text.byteLength taken + Text.byteLength text := by
    rw [Span.upper, hstop, Nat.zero_add]
    exact UInt32.toNat_ofNat_of_lt' (by omega)
  have hscan := hscans.cut.scan_eq
  rw [List.append_nil, Token.scan_nil] at hscan
  rw [hlower, hupper, Parser.textBetween_append (hp.trans hcs), String.toList_ofList,
    ← Token.toOption_scan, hscan]
  show some (List.map Token.terminal (own ++ _)) = _
  rw [List.map_append]
  rfl

/-! ## Derivations before another rest -/

/-- What stands after a derivation does not matter to it: the end of the rest may be exchanged. -/
theorem DerivesExpr.exchange {s : ExprSymbol} {us rest mid tail : List Terminal} {ss : List Shape}
    (h : DerivesExpr s us rest ss) (hrest : rest = mid ++ tail) (tail' : List Terminal) :
    ∃ us', us = us' ++ tail ∧ DerivesExpr s (us' ++ tail') (mid ++ tail') ss := by
  induction h generalizing mid with
  | ofAdditive _ ih =>
    obtain ⟨us, rfl, h⟩ := ih hrest
    exact ⟨us, rfl, .ofAdditive h⟩
  | ofMultiplicative _ ih =>
    obtain ⟨us, rfl, h⟩ := ih hrest
    exact ⟨us, rfl, .ofMultiplicative h⟩
  | ofUnary _ ih =>
    obtain ⟨us, rfl, h⟩ := ih hrest
    exact ⟨us, rfl, .ofUnary h⟩
  | ofPower _ ih =>
    obtain ⟨us, rfl, h⟩ := ih hrest
    exact ⟨us, rfl, .ofPower h⟩
  | ofSuffixed _ ih =>
    obtain ⟨us, rfl, h⟩ := ih hrest
    exact ⟨us, rfl, .ofSuffixed h⟩
  | ofPrimary _ ih =>
    obtain ⟨us, rfl, h⟩ := ih hrest
    exact ⟨us, rfl, .ofPrimary h⟩
  | comparison _ hk _ ihl ihr =>
    obtain ⟨vs, rfl, hr⟩ := ihr hrest
    obtain ⟨us, rfl, hl⟩ := ihl List.cons_append.symm
    exact ⟨us, rfl, .comparison hl hk hr⟩
  | sum _ hk _ ihl ihr =>
    obtain ⟨vs, rfl, hr⟩ := ihr hrest
    obtain ⟨us, rfl, hl⟩ := ihl List.cons_append.symm
    exact ⟨us, rfl, .sum hl hk hr⟩
  | product _ hk _ ihl ihr =>
    obtain ⟨vs, rfl, hr⟩ := ihr hrest
    obtain ⟨us, rfl, hl⟩ := ihl List.cons_append.symm
    exact ⟨us, rfl, .product hl hk hr⟩
  | power _ hk _ ihl ihr =>
    obtain ⟨vs, rfl, hr⟩ := ihr hrest
    obtain ⟨us, rfl, hl⟩ := ihl List.cons_append.symm
    exact ⟨us, rfl, .power hl hk hr⟩
  | sign hk _ ih =>
    obtain ⟨us, rfl, h⟩ := ih hrest
    exact ⟨_ :: us, rfl, .sign hk h⟩
  | subscript _ ho _ hc ihb ihi =>
    subst hrest
    obtain ⟨vs, rfl, hi⟩ := ihi List.cons_append.symm
    obtain ⟨us, rfl, hb⟩ := ihb List.cons_append.symm
    exact ⟨us, rfl, .subscript hb ho hi hc⟩
  | call _ hf ho _ hc ihf iha =>
    subst hrest
    obtain ⟨vs, rfl, ha⟩ := iha List.cons_append.symm
    obtain ⟨us, rfl, hb⟩ := ihf List.cons_append.symm
    exact ⟨us, rfl, .call hb hf ho ha hc⟩
  | atom hk =>
    subst hrest
    exact ⟨_ :: mid, rfl, .atom hk⟩
  | group ho _ hc ih =>
    subst hrest
    obtain ⟨us, rfl, h⟩ := ih List.cons_append.symm
    exact ⟨_ :: us, rfl, .group ho h hc⟩
  | array ho _ hc ih =>
    subst hrest
    obtain ⟨us, rfl, h⟩ := ih List.cons_append.symm
    exact ⟨_ :: us, rfl, .array ho h hc⟩
  | one _ ih =>
    obtain ⟨us, rfl, h⟩ := ih hrest
    exact ⟨us, rfl, .one h⟩
  | more _ hc _ ih ihs =>
    obtain ⟨vs, rfl, hs⟩ := ihs hrest
    obtain ⟨us, rfl, h⟩ := ih List.cons_append.symm
    exact ⟨us, rfl, .more h hc hs⟩
  | noArguments =>
    subst hrest
    exact ⟨mid, rfl, .noArguments⟩
  | someArguments _ ih =>
    obtain ⟨us, rfl, h⟩ := ih hrest
    exact ⟨us, rfl, .someArguments h⟩

/-- A derivation of an expression does not depend on what follows. -/
theorem DerivesExpr.before {s : ExprSymbol} {ts rest : List Terminal} {ss : List Shape}
    (h : DerivesExpr s (ts ++ rest) rest ss) (rest' : List Terminal) :
    DerivesExpr s (ts ++ rest') rest' ss := by
  obtain ⟨us, hus, h'⟩ := h.exchange (List.nil_append rest).symm rest'
  rw [List.append_cancel_right hus]
  exact h'

/-! ## Nodes and their tokens -/

/-- The rules of expressions that have parts. -/
def Rule.isCompound : Rule → Bool
  | .binary | .unary | .call | .arrayLit | .subscript => .true
  | _ => .false

namespace Node

/-- The node itself and all the nodes below it. -/
inductive Contains : Node → Node → Prop where
  | self : Contains n n
  | child : c ∈ n.children → Contains c m → Contains n m

/-- The text of the node is that of the tokens `own`. They derive its tree, but only after the
parentheses `opens`: the node begins with its first operand, inside the parentheses around that. -/
structure CutFrom (p : Parser) (tokens opens own : List Token) (n : Node) : Prop where
  inside : ∃ before after, tokens = before ++ (opens ++ own ++ after) ∧ after ≠ []
  parens : ∀ t ∈ opens, t.kind = .openParen
  whole : n.rule = .unary ∨ n.rule = .arrayLit → opens = []
  text : ∃ first last, own.head? = some first ∧ own.getLast? = some last ∧
    n.text = p.textBetween first.span.lower last.span.upper
  derives : ∀ rest, DerivesExpr .expr ((opens ++ own).map Token.terminal ++ rest) rest [n.shape]

/-- Every expression with parts in the tree is cut from the tokens. -/
def Excerpted (p : Parser) (tokens : List Token) (n : Node) : Prop :=
  ∀ m, n.Contains m → m.rule.isCompound = true → ∃ opens own, m.CutFrom p tokens opens own

variable {p : Parser} {tokens : List Token} {n : Node} {ns : List Node} {rule : Rule}

/-- A node is cut from the source if its own text is and its children are. -/
theorem excerpted_of_children (hn : n.rule.isCompound = true → ∃ opens own,
    n.CutFrom p tokens opens own) (h : ∀ c ∈ n.children, c.Excerpted p tokens) :
    n.Excerpted p tokens := by
  intro m hm hrule
  cases hm with
  | self => exact hn hrule
  | child hc hm => exact h _ hc m hm hrule

theorem excerpted_leaf (hrule : rule.isCompound = false) (t : Token) :
    (ParseM.leaf rule t).Excerpted p tokens :=
  excerpted_of_children (fun h => by cases hrule.symm.trans h) (List.forall_mem_nil _)

theorem excerpted_nodeTo (hrule : rule.isCompound = false) (h : ∀ n ∈ ns, n.Excerpted p tokens)
    (start : Position) (c : Cursor) : (p.nodeTo rule start ns c).Excerpted p tokens :=
  excerpted_of_children (fun h => by cases hrule.symm.trans h) h

theorem Excerpted.pair {m : Node} (hn : n.Excerpted p tokens) (hm : m.Excerpted p tokens) :
    ∀ k ∈ [n, m], k.Excerpted p tokens :=
  List.forall_mem_cons.2 ⟨hn, List.forall_mem_singleton.2 hm⟩

end Node

namespace Cursor

variable {p : Parser} {c c' c₀ : Cursor} {left : Node} {ns : List Node} {rule : Rule}
  {start : Position} {first : Token} {tokens opens own : List Token}

/-- The cursor stands in front of the last of the tokens. -/
structure Inside (tokens : List Token) (c : Cursor) : Prop where
  ended : c.Ended
  suffix : c.tokens <:+ tokens

/-- Taking tokens stays inside the source. -/
theorem Takes.inside (h : c.Takes own c') (hc : c.Inside tokens) : c'.Inside tokens :=
  ⟨h.ended, .trans ⟨own, h.tokens.symm⟩ hc.suffix⟩

theorem Reads.inside (h : c.Reads p ns c') (hc : c.Inside tokens) : c'.Inside tokens := by
  obtain ⟨ts, -, htakes, -⟩ := h
  exact htakes.inside hc

/-- On the way from `c` to `c'` the node is read, which begins after the parentheses that are opened
in front of it. Every expression with parts in it is cut from the tokens. -/
structure Excerpts (p : Parser) (tokens : List Token) (c : Cursor) (n : Node) (c' : Cursor) :
    Prop where
  begins : ∃ opens own first, (∀ t ∈ opens, t.kind = .openParen) ∧ c.Takes (opens ++ own) c' ∧
    own.head? = some first ∧ first.span.start = n.start
  excerpted : n.Excerpted p tokens

theorem Excerpts.inside {n : Node} (h : c.Excerpts p tokens n c') (hc : c.Inside tokens) :
    c'.Inside tokens := by
  obtain ⟨opens, own, first, -, htakes, -⟩ := h.begins
  exact htakes.inside hc

theorem Takes.terminals (h : c.Takes own c') :
    c.terminals = own.map Token.terminal ++ c'.terminals := by
  have htokens := congrArg (List.map Token.terminal) h.tokens
  rwa [List.map_append] at htokens

/-- What is read up to `c'` becomes one node. -/
theorem Takes.cutFrom (h : c.Takes (opens ++ own) c') (hc : c.Inside tokens)
    (hopens : ∀ t ∈ opens, t.kind = .openParen) (hfirst : own.head? = some first)
    (hstart : first.span.start = start) (hrule : rule = .unary ∨ rule = .arrayLit → opens = [])
    (hd : DerivesExpr .expr c.terminals c'.terminals [(p.nodeTo rule start ns c').shape]) :
    (p.nodeTo rule start ns c').CutFrom p tokens opens own where
  inside := by
    obtain ⟨before, hbefore⟩ := hc.suffix
    exact ⟨before, c'.tokens, by rw [← hbefore, h.tokens], List.cons_ne_nil _ _⟩
  parens := hopens
  whole := hrule
  text := by
    obtain ⟨more, rfl⟩ := List.head?_eq_some_iff.1 hfirst
    have hlast : (first :: more).getLast? = _ := List.getLast?_cons
    refine ⟨first, _, hfirst, hlast, ?_⟩
    rw [Parser.nodeTo, h.previousEnd_eq (List.mem_getLast?_append_of_mem_getLast? hlast), ← hstart]
    rfl
  derives := by
    rw [h.terminals] at hd
    exact hd.before

/-- A node that begins where reading began. -/
theorem Reads.excerpts (h : c.Reads p ns c') (hc : c.Inside tokens)
    (hns : ∀ n ∈ ns, n.Excerpted p tokens)
    (hd : DerivesExpr .expr c.terminals c'.terminals [(p.nodeTo rule c.start ns c').shape]) :
    c.Excerpts p tokens (p.nodeTo rule c.start ns c') c' := by
  obtain ⟨ts, hne, htakes, -⟩ := h
  have hfirst := htakes.head?_eq hne
  have hnone : ∀ t ∈ ([] : List Token), t.kind = .openParen := List.forall_mem_nil _
  refine ⟨⟨[], ts, _, hnone, htakes, hfirst, rfl⟩, Node.excerpted_of_children ?_ hns⟩
  intro _
  exact ⟨[], ts, htakes.cutFrom hc hnone hfirst rfl (fun _ => rfl) hd⟩

/-- A node that begins where its first part does. -/
theorem Excerpts.extend (hleft : c₀.Excerpts p tokens left c) (h : c.Reads p ns c')
    (hc : c₀.Inside tokens) (hns : ∀ n ∈ ns, n.Excerpted p tokens)
    (hrule : ¬(rule = .unary ∨ rule = .arrayLit))
    (hd : DerivesExpr .expr c₀.terminals c'.terminals
      [(p.nodeTo rule left.start (left :: ns) c').shape]) :
    c₀.Excerpts p tokens (p.nodeTo rule left.start (left :: ns) c') c' := by
  obtain ⟨⟨opens, own, first, hopens, htakes, hfirst, hstart⟩, hleft⟩ := hleft
  obtain ⟨ts, -, htakes', -⟩ := h
  have hall := htakes.trans htakes'
  rw [List.append_assoc] at hall
  have hfirst' : (own ++ ts).head? = some first := List.mem_head?_append_of_mem_head? hfirst
  refine ⟨⟨opens, own ++ ts, first, hopens, hall, hfirst', hstart⟩,
    Node.excerpted_of_children ?_ (List.forall_mem_cons.2 ⟨hleft, hns⟩)⟩
  intro _
  exact ⟨opens, own ++ ts, hall.cutFrom hc hopens hfirst' hstart (fun h => absurd h hrule) hd⟩

/-- Parentheses around a node do not change where it begins. -/
theorem Excerpts.group {n : Node} (h : c.next.Excerpts p tokens n c') (hc : c.Ended)
    (hk : c.kind = .openParen) (hk' : c'.kind = .closeParen) : c.Excerpts p tokens n c'.next := by
  obtain ⟨⟨opens, own, first, hopens, htakes, hfirst, hstart⟩, hn⟩ := h
  have hopen := hc.takes (by rw [hk]; decide)
  have hclose := htakes.ended.takes (by rw [hk']; decide)
  have hall : c.Takes (c.current :: opens ++ (own ++ [c'.current])) c'.next := by
    simpa using (hopen.trans htakes).trans hclose
  exact ⟨⟨c.current :: opens, own ++ [c'.current], first, List.forall_mem_cons.2 ⟨hk, hopens⟩, hall,
    List.mem_head?_append_of_mem_head? hfirst, hstart⟩, hn⟩

end Cursor

/-! ## Goals -/

/-- What is read for the goal is cut from the tokens. -/
def Goal.Excerpts (p : Parser) (tokens : List Token) : Goal → Cursor → Node → Cursor → Prop
  | .expr _, c, n, c' => c.Excerpts p tokens n c'
  | _, _, n, _ => n.Excerpted p tokens

/-- Whatever `solve` reads for a goal is cut from the tokens. -/
structure Excerpting (p : Parser) (tokens : List Token) (solve : Goal → ParseM Node) : Prop where
  covering : Covering p solve
  sound : Sound solve
  excerpts : ∀ goal : Goal, goal.Standard → ∀ {c n c'}, c.Inside tokens →
    solve goal c = .ok n c' → goal.Excerpts p tokens c n c'

section

variable {p : Parser} {solve : Goal → ParseM Node} {tokens : List Token} {c c' c₀ : Cursor}
  {node left : Node} {nodes : List Node}

open ParseM

/-- The signs whose right operands are read at their own power bind no tighter than unary ones. -/
theorem Operators.not_unary_lt_power {k : TokenKind} {t : Trailing}
    (h : expressions.trailing k = some t) (ht : t ≠ .exponent ∧ t ≠ .call ∧ t ≠ .subscript) :
    ¬Power.unary < expressions.power k := by
  rcases trailing_expressions h with ⟨-, -, hq⟩ | ⟨-, -, hq⟩ | ⟨-, -, hq⟩ | ⟨rfl, -⟩ | ⟨rfl, -⟩ |
    ⟨rfl, -⟩
  · rw [hq]; decide
  · rw [hq]; decide
  · rw [hq]; decide
  · exact absurd rfl ht.1
  · exact absurd rfl ht.2.1
  · exact absurd rfl ht.2.2

namespace Excerpting

theorem expr (hs : Excerpting p tokens solve) (hc : c.Inside tokens)
    (h : solve (.expr .default) c = .ok node c') : c.Excerpts p tokens node c' :=
  hs.excerpts (.expr .default) (by decide) hc h

/-- The items of a list are all cut from the source. -/
theorem separated {item : ParseM Node}
    (hreads : ∀ {c node c'}, c.Ended → item c = .ok node c' → c.Reads p [node] c')
    (hitem : ∀ {c node c'}, c.Inside tokens → item c = .ok node c' → node.Excerpted p tokens)
    (hc : c.Inside tokens) (h : Parser.ReadsSeparated item c nodes c') :
    ∀ n ∈ nodes, n.Excerpted p tokens := by
  induction h with
  | one hn => exact List.forall_mem_singleton.2 (hitem hc hn)
  | more hn hk _ ih =>
    have hcomma := (hreads hc.ended hn).drop hk rfl
    exact List.forall_mem_cons.2 ⟨hitem hc hn, ih (hcomma.inside hc)⟩

theorem exprList (hs : Excerpting p tokens solve) {close : TokenKind} (hc : c.Inside tokens)
    (h : Parser.exprList solve close c = .ok nodes c') : ∀ n ∈ nodes, n.Excerpted p tokens := by
  rcases Parser.exprList_eq_ok.1 h with ⟨-, rfl, -⟩ | ⟨-, items, c₁, hi, -, rfl, -⟩
  · exact List.forall_mem_nil _
  · apply separated (hs.covering _) _ hc (Parser.readsSeparated_of_commaSeparated hi)
    intro c node c' hc hn
    exact (hs.expr hc hn).excerpted

/-! ## Expressions -/

/-- What begins an expression has the text between its first token and its last. -/
theorem leading (hs : Excerpting p tokens solve) {l : Leading} (hc : c.Inside tokens)
    (hl : Operators.expressions.leading c.kind = some l) (h : p.leading solve l c = .ok node c') :
    c.Excerpts p tokens node c' := by
  have hleft : LeftOf .default c.terminals node c' := leading_sound hs.sound hc.ended hl h
  have hd := hleft.operand
  rcases Operators.leading_expressions hl with ⟨rfl, -⟩ | ⟨rfl, hk⟩ | ⟨rfl, hk⟩ | ⟨rfl, hk⟩
  · obtain ⟨rule, hr, rfl, rfl⟩ := Parser.primary_eq_ok.1 h
    have hkind : rule.isCompound = false ∧ c.kind ≠ .endOfText := by
      generalize c.kind = k at hr
      cases k <;> cases hr <;> decide
    exact ⟨⟨[], [c.current], _, List.forall_mem_nil _, hc.ended.takes hkind.2, rfl, rfl⟩,
      Node.excerpted_leaf hkind.1 _⟩
  · obtain ⟨operand, c₁, ho, rfl, rfl⟩ := Parser.unary_eq_ok.1 h
    have hop : Rule.op ∈ c.kind.leafRules := by rcases hk with hk | hk <;> rw [hk] <;> decide
    have hsign := hc.ended.leaf (p := p) hop
    have hoperand := hs.excerpts (.expr .unary) (by decide) (hsign.inside hc) ho
    exact (hsign.goal hs.covering ho).excerpts hc
      ((Node.excerpted_leaf rfl _).pair hoperand.excerpted) hd
  · obtain ⟨inner, c₁, hi, hk', rfl, rfl⟩ := Parser.grouping_eq_ok.1 h
    have hopen := hc.ended.drop (p := p) hk rfl
    exact (hs.expr (hopen.inside hc) hi).group hc.ended hk hk'
  · obtain ⟨elements, c₁, he, rfl, rfl⟩ := Parser.array_eq_ok.1 h
    have hopen := hc.ended.drop (p := p) hk rfl
    have helements := hs.exprList (hopen.inside hc) he
    have hreads := hopen.append (reads_exprList hs.covering rfl hopen.ended he).any
    exact hreads.excerpts hc helements hd

theorem binary (hs : Excerpting p tokens solve) {q : Power} (hq : ¬Power.unary < q)
    (hc : c₀.Inside tokens) (hleft : c₀.Excerpts p tokens left c)
    (hop : Rule.op ∈ c.kind.leafRules) (h : p.binary solve left q c = .ok node c')
    (hd : DerivesExpr .expr c₀.terminals c'.terminals [node.shape]) :
    c₀.Excerpts p tokens node c' := by
  obtain ⟨right, c₁, hr, rfl, rfl⟩ := Parser.binary_eq_ok.1 h
  have hinside := hleft.inside hc
  have hsign := hinside.ended.leaf (p := p) hop
  have hright := hs.excerpts (.expr q) hq (hsign.inside hinside) hr
  exact hleft.extend (hsign.goal hs.covering hr) hc
    ((Node.excerpted_leaf rfl _).pair hright.excerpted) (by decide) hd

/-- An operation has the text from the first token of its left side on. A bracket that opens before
that is cut off. -/
theorem trailing (hs : Excerpting p tokens solve) {t : Trailing} (hc : c₀.Inside tokens)
    (hleft : c₀.Excerpts p tokens left c)
    (hd : DerivesExpr .expr c₀.terminals c'.terminals [node.shape])
    (ht : Operators.expressions.trailing c.kind = some t)
    (h : p.trailing solve left (Operators.expressions.power c.kind) t c = .ok node c') :
    c₀.Excerpts p tokens node c' := by
  have hinside := hleft.inside hc
  rcases Operators.leafRules_of_trailing ht with ⟨rfl | rfl | rfl, hop⟩ | ⟨rfl, hk⟩ | ⟨rfl, hk⟩
  · have hq := Operators.not_unary_lt_power ht (by decide)
    exact hs.binary hq hc hleft hop h hd
  · have hq := Operators.not_unary_lt_power ht (by decide)
    exact hs.binary hq hc hleft hop (Parser.comparison_eq_ok.1 h).1 hd
  · exact hs.binary (q := .unary) (by decide) hc hleft hop h hd
  · obtain ⟨-, arguments, c₁, ha, rfl, rfl⟩ := Parser.call_eq_ok.1 h
    have hopen := hinside.ended.drop (p := p) hk rfl
    have hargs := hs.exprList (hopen.inside hinside) ha
    have hreads := hopen.append (reads_exprList hs.covering rfl hopen.ended ha).any
    exact hleft.extend hreads hc hargs (by decide) hd
  · obtain ⟨index, c₁, hi, hk', rfl, rfl⟩ := Parser.subscript_eq_ok.1 h
    have hopen := hinside.ended.drop (p := p) hk rfl
    have hindex := hs.expr (hopen.inside hinside) hi
    have hreads := (hopen.goal hs.covering hi).drop hk' rfl
    exact hleft.extend hreads hc (List.forall_mem_singleton.2 hindex.excerpted) (by decide) hd

/-- The loop over trailing constructs. That the node to the left derives what has been read so far
is what `LeftOf` carries along. -/
theorem continues (hs : Excerpting p tokens solve) {power : Power} (hc : c₀.Inside tokens)
    (hderives : LeftOf power c₀.terminals left c) (hleft : c₀.Excerpts p tokens left c)
    (h : p.Continues solve .expressions power left c node c') : c₀.Excerpts p tokens node c' := by
  induction h with
  | done => exact hleft
  | @next _ next _ _ c₁ _ _ hp ht hn _ ih =>
    have hnext := trailing_sound hs.sound hderives hp ht hn
    have hd : DerivesExpr .expr c₀.terminals c₁.terminals [next.shape] :=
      hnext.operand.loosen (by decide) power.operandSymbol_layer.1
    exact ih hnext (hs.trailing hc hleft hd ht hn)

/-- An expression, with the text that it was read from. -/
theorem operand (hs : Excerpting p tokens solve) {power : Power} (hc : c.Inside tokens)
    (h : p.operand solve .expressions power c = .ok node c') : c.Excerpts p tokens node c' := by
  obtain ⟨l, hl, first, c₁, hf, h⟩ := Parser.operand_eq_ok.1 h
  exact hs.continues hc (leading_sound hs.sound hc.ended hl hf) (hs.leading hc hl hf)
    (Parser.continues_of_extend h)

/-! ## Types and statements -/

theorem continues_types (hleft : left.Excerpted p tokens)
    (h : p.Continues solve .types .default left c node c') : node.Excerpted p tokens := by
  induction h with
  | done => exact hleft
  | next _ ht hn _ ih =>
    cases Operators.trailing_types ht
    obtain ⟨-, -, rfl, rfl⟩ := Parser.arrayType_eq_ok.1 hn
    exact ih (Node.excerpted_nodeTo rfl (List.forall_mem_singleton.2 hleft) _ _)

theorem type (h : p.operand solve .types .default c = .ok node c') : node.Excerpted p tokens := by
  obtain ⟨l, hl, first, c₁, hf, h⟩ := Parser.operand_eq_ok.1 h
  cases Operators.leading_types hl
  obtain ⟨-, rfl, rfl⟩ := Parser.namedType_eq_ok.1 hf
  exact continues_types (Node.excerpted_leaf rfl _) (Parser.continues_of_extend h)

theorem param (hs : Excerpting p tokens solve) (hc : c.Inside tokens)
    (h : p.param solve c = .ok node c') : node.Excerpted p tokens := by
  obtain ⟨hk, hk', type, c₁, ht, rfl, rfl⟩ := Parser.param_eq_ok.1 h
  have hname : Rule.id ∈ c.kind.leafRules := by rw [hk]; decide
  have hhead := (hc.ended.leaf (p := p) hname).drop hk' rfl
  have htype := hs.excerpts (.type .default) (by decide) (hhead.inside hc) ht
  exact Node.excerpted_nodeTo rfl ((Node.excerpted_leaf rfl _).pair htype) _ _

theorem params (hs : Excerpting p tokens solve) (hc : c.Inside tokens)
    (h : p.params solve c = .ok node c') : node.Excerpted p tokens := by
  obtain ⟨hk, h⟩ := Parser.params_eq_ok.1 h
  have hopen := hc.ended.drop (p := p) hk rfl
  rcases h with ⟨-, rfl, -⟩ | ⟨-, items, c₁, hi, -, rfl, -⟩
  · exact Node.excerpted_nodeTo rfl (List.forall_mem_nil _) _ _
  · have hitems := separated (reads_param hs.covering) hs.param (hopen.inside hc)
      (Parser.readsSeparated_of_commaSeparated hi)
    exact Node.excerpted_nodeTo rfl hitems _ _

theorem statements (hs : Excerpting p tokens solve) {close : TokenKind} (hc : c.Inside tokens)
    (h : Parser.ReadsUntil close (solve .stmt) c nodes c') : ∀ n ∈ nodes, n.Excerpted p tokens := by
  induction h with
  | done => exact List.forall_mem_nil _
  | next hn _ ih =>
    have hreads := hs.covering .stmt hc.ended hn
    exact List.forall_mem_cons.2 ⟨hs.excerpts .stmt trivial hc hn, ih (hreads.inside hc)⟩

theorem block (hs : Excerpting p tokens solve) (hc : c.Inside tokens)
    (h : p.block solve c = .ok node c') : node.Excerpted p tokens := by
  obtain ⟨hk, statements, c₁, hb, -, rfl, -⟩ := Parser.block_eq_ok.1 h
  have hopen := hc.ended.drop (p := p) hk rfl
  have hbody := hs.statements (hopen.inside hc) (Parser.readsUntil_of_untilClosed hb)
  exact Node.excerpted_nodeTo rfl hbody _ _

/-- A statement that a reserved word begins. -/
theorem keyword (hs : Excerpting p tokens solve) {l : Leading} (hc : c.Inside tokens)
    (hl : Grammar.standard.statement c.kind = some l) (h : p.leading solve l c = .ok node c') :
    node.Excerpted p tokens := by
  generalize hk : c.kind = k at hl
  cases k <;> cases hl
  case letWord =>
    obtain ⟨hk₁, hk₂, initializer, c₁, hi, -, rfl, -⟩ := Parser.declaration_eq_ok.1 h
    have hname : Rule.id ∈ c.next.kind.leafRules := by rw [hk₁]; decide
    have hhead := ((hc.ended.drop (p := p) hk rfl).leaf hname).drop hk₂ rfl
    have hinitializer := (hs.expr (hhead.inside hc) hi).excerpted
    exact Node.excerpted_nodeTo rfl ((Node.excerpted_leaf rfl _).pair hinitializer) _ _
  case printWord =>
    obtain ⟨hk₁, argument, c₁, ha, -, -, rfl, -⟩ := Parser.print_eq_ok.1 h
    have hhead := (hc.ended.drop (p := p) hk rfl).drop hk₁ rfl
    have hargument := (hs.expr (hhead.inside hc) ha).excerpted
    exact Node.excerpted_nodeTo rfl (List.forall_mem_singleton.2 hargument) _ _
  case whileWord =>
    obtain ⟨test, c₁, ht, hk₁, body, c₂, hb, rfl, -⟩ := Parser.loop_eq_ok.1 h
    have hword := hc.ended.drop (p := p) hk rfl
    have htest := (hs.expr (hword.inside hc) ht).excerpted
    have hhead := (hword.goal hs.covering ht).drop hk₁ rfl
    have hbody := hs.block (hhead.inside hc) hb
    exact Node.excerpted_nodeTo rfl (htest.pair hbody) _ _
  case returnWord =>
    rcases Parser.result_eq_ok.1 h with ⟨-, rfl, -⟩ | ⟨-, value, c₁, hv, -, rfl, -⟩
    · exact Node.excerpted_nodeTo rfl (List.forall_mem_nil _) _ _
    · have hword := hc.ended.drop (p := p) hk rfl
      have hvalue := (hs.expr (hword.inside hc) hv).excerpted
      exact Node.excerpted_nodeTo rfl (List.forall_mem_singleton.2 hvalue) _ _
  case funWord =>
    obtain ⟨hk₁, params, c₁, hps, type, c₂, htype, hk₂, body, c₃, hb, rfl, -⟩ :=
      Parser.function_eq_ok.1 h
    have hid : Rule.id ∈ c.next.kind.leafRules := by rw [hk₁]; decide
    have hname := (hc.ended.drop (p := p) hk rfl).leaf hid
    have hparams := hname.append (reads_params hs.covering hname.ended hps).any
    have hhead : c.Reads p (leaf .id c.next.current :: params :: type) c₂ ∧
        ∀ n ∈ type, n.Excerpted p tokens := by
      rcases htype with ⟨ha, t, c₃, ht, rfl, rfl⟩ | ⟨-, rfl, rfl⟩
      · have harrow := hparams.drop ha rfl
        have hresult := hs.excerpts (.type .default) (by decide) (harrow.inside hc) ht
        exact ⟨harrow.goal hs.covering ht, List.forall_mem_singleton.2 hresult⟩
      · exact ⟨hparams, List.forall_mem_nil _⟩
    have hbody := hs.block ((hhead.1.drop hk₂ rfl).inside hc) hb
    have hstart := List.forall_mem_cons.2 ⟨hs.params (hname.inside hc) hps, hhead.2⟩
    exact Node.excerpted_nodeTo rfl (List.forall_mem_append.2 ⟨List.forall_mem_cons.2
      ⟨Node.excerpted_leaf rfl _, hstart⟩, List.forall_mem_singleton.2 hbody⟩) _ _

theorem simpleStatement (hs : Excerpting p tokens solve) (hc : c.Inside tokens)
    (h : p.simpleStatement solve c = .ok node c') : node.Excerpted p tokens := by
  obtain ⟨expr, c₁, he, h⟩ := Parser.simpleStatement_eq_ok.1 h
  have hexpr := hs.expr hc he
  rcases h with ⟨hk, -, source, c₂, hsource, -, rfl, -⟩ | ⟨-, -, -, rfl, -⟩
  · have hinside := hexpr.inside hc
    have hsign := hinside.ended.drop (p := p) hk rfl
    have hvalue := (hs.expr (hsign.inside hinside) hsource).excerpted
    exact Node.excerpted_nodeTo rfl (hexpr.excerpted.pair hvalue) _ _
  · exact Node.excerpted_nodeTo rfl (List.forall_mem_singleton.2 hexpr.excerpted) _ _

/-- One level of the parser. -/
theorem step (hp : p.grammar = .standard) (hs : Excerpting p tokens solve) :
    Excerpting p tokens (p.step solve) where
  covering := Parser.covering_step hp hs.covering
  sound := Parser.step_sound hp hs.sound
  excerpts := by
    intro goal hg c n c' hc h
    cases goal with
    | expr power =>
      rw [Parser.step, hp] at h
      exact hs.operand hc h
    | type power =>
      cases hg
      rw [Parser.step, hp] at h
      exact type h
    | stmt =>
      rcases Parser.statement_eq_ok.1 h with ⟨l, hl, h⟩ | ⟨-, h⟩
      · exact hs.keyword hc (hp ▸ hl) h
      · exact hs.simpleStatement hc h

/-- Every level of the parser. -/
theorem run (hp : p.grammar = .standard) (tokens : List Token) (n : Nat) :
    Excerpting p tokens (p.run n) := by
  induction n with
  | zero =>
    refine ⟨Parser.covering_run hp 0, Parser.run_sound hp 0, ?_⟩
    intro goal _ c n c' _ h
    simp [Parser.run, tooDeep_apply] at h
  | succ n ih => exact ih.step hp

end Excerpting

end

/-- Every expression with parts in the tree of a source is cut from the tokens. -/
theorem excerpted_of_parse {tokens : List Token} {source : String} {tree : Node}
    (h : EndsOnce tokens) (hp : parse tokens source = .ok tree) :
    tree.Excerpted ⟨.standard, source.toList⟩ tokens := by
  obtain ⟨c, hprogram⟩ := parse_eq_ok.1 hp
  obtain ⟨statements, hstatements, rfl⟩ := Parser.program_eq_ok.1 hprogram
  have hinside : (Cursor.ofTokens tokens).Inside tokens :=
    ⟨h.ended_ofTokens, [], h.tokens_ofTokens⟩
  have hbody := (Excerpting.run rfl tokens _).statements hinside
    (Parser.readsUntil_of_untilEnd hstatements)
  exact Node.excerpted_nodeTo rfl hbody _ _

/-! ## Texts -/

section

open Terminal

/-- How many more parentheses the text closes than it opens. -/
def unopened (text : String) : Nat :=
  match terminals? text.toList with
  | some ts => closed ts - opened ts
  | none => 0

/-- The brackets that a text closes and does not open, counted from its terminals. -/
theorem unopened_of_terminals? {text : String} {ts : List Terminal}
    (h : terminals? text.toList = some ts) : unopened text = closed ts - opened ts := by
  rw [unopened, h]

/-- An expression closes the parentheses that it opens, and no others. -/
theorem unopened_of_readsAs {text : String} {file : Option String} {s : Shape}
    (h : ReadsAs text file s) : unopened text = 0 := by
  obtain ⟨tokens, node, c, htokens, -⟩ := id h
  have hterminals := (tokenize_eq_ok_iff file).1 ⟨tokens, htokens, rfl⟩
  obtain ⟨t, hd, hk⟩ := (readsAs_iff_derives hterminals file s).1 h
  have hcounts := hd.counts.2
  have hend := counts_of_isSolid [] (isSolid_of_kind hk rfl)
  rw [unopened_of_terminals? hterminals]
  simp only [opened, closed, List.countP_nil] at hcounts hend
  simp only [opened, closed]
  omega

theorem counts_openParens (k : Nat) : opened (List.replicate k ⟨.openParen, "("⟩) = k ∧
    closed (List.replicate k ⟨.openParen, "("⟩) = 0 := by
  simp [opened, closed, List.countP_replicate]

/-- Brackets in front of a text are terminals of their own. -/
theorem terminals?_openParens (k : Nat) (cs : List Char) :
    terminals? (List.replicate k '(' ++ cs) =
      (terminals? cs).map (List.replicate k ⟨.openParen, "("⟩ ++ ·) := by
  induction k with
  | zero => simp
  | succ k ih =>
    have hfirst : Pattern.first? (['('] ++ (List.replicate k '(' ++ cs)) =
        some (.sign ['('] .openParen, 1) := rfl
    rw [List.replicate_succ, List.cons_append, ← List.singleton_append, terminals?_append hfirst,
      ih]
    simp [Function.comp_def, List.replicate_succ, Pattern.terminal?, Pattern.token?]

namespace Node.CutFrom

variable {source : String} {file : Option String} {tokens opens own : List Token} {n : Node}

theorem kind_ne (h : n.CutFrom p tokens opens own) (htokens : EndsOnce tokens) :
    ∀ t ∈ own, t.kind ≠ .endOfText := by
  obtain ⟨before, after, htokens', hafter⟩ := h.inside
  obtain ⟨body, last, hbody, -, hkinds⟩ := htokens
  have hdrop := congrArg List.dropLast (hbody.symm.trans htokens')
  rw [List.dropLast_concat, List.dropLast_append_of_ne_nil (by simp [hafter]),
    List.dropLast_append_of_ne_nil hafter] at hdrop
  intro t ht
  apply hkinds
  simp [hdrop, ht]

/-- The tokens in front are the parentheses that the text closes without opening them. -/
theorem terminals (h : n.CutFrom ⟨.standard, source.toList⟩ tokens opens own)
    (hsize : Text.byteLength source.toList < UInt32.size) (ht : tokenize source file = .ok tokens) :
    terminals? n.text.toList = some (own.map Token.terminal ++ [.endOfText]) ∧
      opens.map Token.terminal = List.replicate (unopened n.text) ⟨.openParen, "("⟩ := by
  obtain ⟨hends, hcoherent⟩ := tokenize_coherent ht
  have hown := h.kind_ne hends
  obtain ⟨before, after, rfl, -⟩ := h.inside
  obtain ⟨first, last, hfirst, hlast, htext⟩ := h.text
  have hslice : before ++ (opens ++ own ++ after) = before ++ opens ++ (own ++ after) := by simp
  rw [hslice] at ht
  have hterminals := terminals?_textBetween (p := ⟨.standard, source.toList⟩) rfl hsize ht hown
    hfirst hlast
  rw [← htext] at hterminals
  have hopens : opens.map Token.terminal = List.replicate opens.length ⟨.openParen, "("⟩ := by
    rw [List.eq_replicate_iff]
    refine ⟨List.length_map .., List.forall_mem_map.2 ?_⟩
    intro t ht
    have hkind : t.kind = .openParen := h.parens t ht
    have hmem : t.terminal ∈ (before ++ (opens ++ own ++ after)).map Token.terminal :=
      List.mem_map_of_mem (by simp [ht])
    have hvalue : t.terminal.value = "(" := by
      apply hcoherent _ hmem
      show t.kind.sign? = _
      rw [hkind]
      rfl
    rw [← hvalue, ← hkind]
    rfl
  have hlength : unopened n.text = opens.length := by
    have hcounts := (h.derives [.endOfText]).counts.2
    have hparens := counts_openParens opens.length
    have hend : opened [endOfText] = 0 ∧ closed [endOfText] = 0 := ⟨rfl, rfl⟩
    rw [List.map_append, hopens] at hcounts
    rw [unopened_of_terminals? hterminals]
    simp only [opened_append, closed_append] at hcounts ⊢
    omega
  rw [hlength]
  exact ⟨hterminals, hopens⟩

end Node.CutFrom

/-- The text of an expression with parts, in the tree of a source, is read back as the expression
if a parenthesis is opened in front for each one that the text closes too many. On its own the text
is read back if there are none, which is so if it begins with a sign or a bracket. -/
theorem readsAs_text_of_parse {source : String} {file : Option String} {tokens : List Token}
    {tree n : Node} (hsize : Text.byteLength source.toList < UInt32.size)
    (ht : tokenize source file = .ok tokens) (hp : parse tokens source = .ok tree)
    (hn : tree.Contains n) (hrule : n.rule.isCompound = true) (file' : Option String) :
    ReadsAs (String.ofList (List.replicate (unopened n.text) '(') ++ n.text) file' n.shape ∧
      (ReadsAs n.text file' n.shape ↔ unopened n.text = 0) ∧
      (n.rule = .unary ∨ n.rule = .arrayLit → unopened n.text = 0) := by
  obtain ⟨opens, own, hcut⟩ := excerpted_of_parse (tokenize_coherent ht).1 hp n hn hrule
  obtain ⟨hterminals, hopens⟩ := hcut.terminals hsize ht
  have hread : ReadsAs (String.ofList (List.replicate (unopened n.text) '(') ++ n.text) file'
      n.shape := by
    have hall : terminals? (String.ofList (List.replicate (unopened n.text) '(') ++ n.text).toList =
        some ((opens ++ own).map Token.terminal ++ [.endOfText]) := by
      rw [String.toList_append, String.toList_ofList, terminals?_openParens, hterminals]
      simp [hopens]
    rw [readsAs_iff_derives hall]
    exact ⟨_, hcut.derives [.endOfText], rfl⟩
  refine ⟨hread, ⟨unopened_of_readsAs, ?_⟩, ?_⟩
  · intro hzero
    rw [hzero] at hread
    simpa using hread
  · intro hwhole
    have hlength := congrArg List.length hopens
    rw [hcut.whole hwhole] at hlength
    simpa using hlength.symm

end

theorem Node.Contains.of_mem_flatMap {tree n : Node}
    (h : n ∈ tree.children.flatMap Node.children) : tree.Contains n := by
  obtain ⟨c, hc, hn⟩ := List.mem_flatMap.1 h
  exact .child hc (.child hn .self)

/-- The base of the index stands in parentheses, and so does its first operand. -/
def groupedBaseSource : String := "print(((1 + 2) * f(3))[-x]);"

theorem readsAs_text_groupedBaseSource : ∃ tokens tree n,
    tokenize groupedBaseSource none = .ok tokens ∧ parse tokens groupedBaseSource = .ok tree ∧
    tree.Contains n ∧ n.rule = .subscript ∧ n.text = "1 + 2) * f(3))[-x]" ∧
    ReadsAs "((1 + 2) * f(3))[-x]" none n.shape ∧ ¬ReadsAs n.text none n.shape := by
  have hread : (tokenize groupedBaseSource none >>= fun tokens =>
      parse tokens groupedBaseSource).toOption.any (fun tree =>
        (tree.children.flatMap Node.children).map (fun n => (n.rule, n.text)) =
          [(.subscript, "1 + 2) * f(3))[-x]")]) = true := by decide +kernel
  obtain ⟨tree, htree, hnodes⟩ := Outcome.exists_ok_of_any hread
  obtain ⟨tokens, ht, hp⟩ := Outcome.exceptBind_eq_ok.1 htree
  obtain ⟨n, hlist, hpair⟩ := List.map_eq_singleton_iff.1 hnodes
  obtain ⟨hrule, htext⟩ := Prod.mk.inj hpair
  have hn : tree.Contains n := .of_mem_flatMap (hlist ▸ List.mem_singleton_self n)
  have hunopened : unopened n.text = 2 := by
    rw [htext]
    decide +kernel
  obtain ⟨hall, halone, -⟩ :=
    readsAs_text_of_parse (by decide) ht hp hn (by rw [hrule]; rfl) none
  rw [hunopened] at hall halone
  refine ⟨tokens, tree, n, ht, hp, hn, hrule, htext, ?_, ?_⟩
  · rw [htext] at hall
    exact hall
  · intro h
    cases halone.1 h

/-- The left operand stands in parentheses. -/
def groupedFactorSource : String := "print((1 + 2) * 3);"

/-- The text of an expression with parts may not be an expression. -/
theorem not_readsAs_text_groupedFactorSource : ∃ tokens tree n,
    tokenize groupedFactorSource none = .ok tokens ∧
    parse tokens groupedFactorSource = .ok tree ∧ tree.Contains n ∧ n.rule = .binary ∧
    n.text = "1 + 2) * 3" ∧ ∀ s, ¬ReadsAs n.text none s := by
  have hread : (tokenize groupedFactorSource none >>= fun tokens =>
      parse tokens groupedFactorSource).toOption.any (fun tree =>
        (tree.children.flatMap Node.children).map (fun n => (n.rule, n.text)) =
          [(.binary, "1 + 2) * 3")]) = true := by decide +kernel
  obtain ⟨tree, htree, hnodes⟩ := Outcome.exists_ok_of_any hread
  obtain ⟨tokens, ht, hp⟩ := Outcome.exceptBind_eq_ok.1 htree
  obtain ⟨n, hlist, hpair⟩ := List.map_eq_singleton_iff.1 hnodes
  obtain ⟨hrule, htext⟩ := Prod.mk.inj hpair
  have hn : tree.Contains n := .of_mem_flatMap (hlist ▸ List.mem_singleton_self n)
  refine ⟨tokens, tree, n, ht, hp, hn, hrule, htext, ?_⟩
  intro s h
  have hunopened : unopened "1 + 2) * 3" = 1 := by decide +kernel
  have hnone := unopened_of_readsAs h
  rw [htext, hunopened] at hnone
  cases hnone

end Scriptlet
