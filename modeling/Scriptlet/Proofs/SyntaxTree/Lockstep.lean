import Scriptlet.Proofs.Lockstep
import Scriptlet.Proofs.SyntaxTree.Pairing
import Scriptlet.Proofs.SyntaxTree.Recognition

/-!
Two sources that are read side by side. If their tokens differ in nothing but their spans, reading
takes the same decisions in both: it gives trees that differ in their spans and in the texts of
their interior nodes, or it fails in both, at corresponding places.
-/

namespace Scriptlet

open ParseM

/-! ## What matches -/

/-- Tokens of the same kind and value whose starts correspond. -/
structure Token.Matches (S : Position → Position → Prop) (t t' : Token) : Prop where
  terminal : t.terminal = t'.terminal
  start : S t.span.start t'.span.start

/-- As many tokens are left, each one matching the other. -/
def Cursor.Matches (S : Position → Position → Prop) (c c' : Cursor) : Prop :=
  List.Forall₂ (Token.Matches S) (c.current :: c.upcoming) (c'.current :: c'.upcoming)

/-- Trees of the same shape whose nodes begin at corresponding places. -/
inductive Node.Matches (S : Position → Position → Prop) : Node → Node → Prop where
  | leaf {rule : Rule} {text : String} {span span' : Span} : rule.isLeaf = true →
      S span.start span'.start → Matches S ⟨rule, text, span, []⟩ ⟨rule, text, span', []⟩
  | branch {rule : Rule} {text text' : String} {span span' : Span} {ns ns' : List Node} :
      rule.isLeaf = false → S span.start span'.start → List.Forall₂ (Matches S) ns ns' →
      Matches S ⟨rule, text, span, ns⟩ ⟨rule, text', span', ns'⟩

/-- Programs whose statements match. Where a program itself begins need not be a token's start. -/
structure Node.MatchesBelow (S : Position → Position → Prop) (n n' : Node) : Prop where
  rule : n.rule = .program
  rule' : n'.rule = .program
  children : List.Forall₂ (Node.Matches S) n.children n'.children

variable {S : Position → Position → Prop}

theorem Token.Matches.kind {t t' : Token} (h : t.Matches S t') : t.kind = t'.kind :=
  congrArg Terminal.kind h.terminal

/-- Tokens that match give leaves that do. -/
theorem Token.Matches.leaf {t t' : Token} {rule : Rule} (h : t.Matches S t')
    (hrule : rule.isLeaf = true) : (ParseM.leaf rule t).Matches S (ParseM.leaf rule t') := by
  have hvalue : t.value = t'.value := congrArg Terminal.value h.terminal
  rw [ParseM.leaf, ParseM.leaf, hvalue]
  exact .leaf hrule h.start

namespace Node.Matches

variable {n n' : Node}

theorem rule (h : n.Matches S n') : n.rule = n'.rule := by
  cases h <;> rfl

theorem start (h : n.Matches S n') : S n.start n'.start := by
  cases h with
  | leaf _ hstart => exact hstart
  | branch _ hstart => exact hstart

end Node.Matches

namespace Cursor.Matches

variable {c c' : Cursor}

theorem current (h : c.Matches S c') : c.current.Matches S c'.current := by
  cases h with
  | cons hcurrent => exact hcurrent

theorem kind (h : c.Matches S c') : c.kind = c'.kind := h.current.kind

/-- As many tokens are left in both, so the bounds of the loops are the same. -/
theorem remaining (h : c.Matches S c') : c.remaining = c'.remaining := h.length_eq

/-- Cursors that match still do one token later. -/
theorem next (h : c.Matches S c') : c.next.Matches S c'.next := by
  obtain ⟨_, t, ts⟩ := c
  obtain ⟨_, t', ts'⟩ := c'
  cases h with
  | cons ht hts =>
    cases hts with
    | nil => exact .cons ht .nil
    | cons hu hus => exact .cons hu hus

theorem unexpected (h : c.Matches S c') : c.unexpected.Matches S c'.unexpected :=
  ⟨rfl, h.current.start, rfl⟩

theorem unexpectedDetailed (h : c.Matches S c') (message : String) :
    (c.unexpectedDetailed message).Matches S (c'.unexpectedDetailed message) :=
  ⟨rfl, h.current.start, rfl⟩

end Cursor.Matches

theorem Cursor.Ended.next {c : Cursor} (h : c.Ended) : c.next.Ended := by
  obtain ⟨t, ht, hk⟩ := h
  obtain ⟨previous, current, _ | ⟨u, us⟩⟩ := c
  · exact ⟨t, ht, hk⟩
  · refine ⟨t, ?_, hk⟩
    simpa [terminals, Cursor.next] using ht

/-- Each token that is taken leaves one fewer, as long as the end is not reached. -/
theorem Cursor.Ended.remaining_next {c : Cursor} (h : c.Ended) (hk : c.kind ≠ .endOfText) :
    c.next.remaining < c.remaining := by
  rw [← length_terminals, ← length_terminals, (h.take rfl hk).1]
  exact Nat.lt_succ_self _

/-- Matching cursors are read side by side. They come to the end together, so that neither reading is
lost. -/
def Pairing.ofMatches (S : Position → Position → Prop) (p p' : Parser) : Pairing p p' where
  place := S
  token := Token.Matches S
  node := Node.Matches S
  fault := Diagnostic.Matches S
  here c c' := c.Matches S c' ∧ c.Ended
  past c c' := c.Matches S c' ∧ c.Ended
  lost _ := False
  excess := 0
  start_of_token _ _ h := h.start
  leaf _ _ h _ hrule := h.leaf hrule
  rule_eq _ _ h := h.rule
  start_of_node _ _ h := h.start
  misplaced _ _ h _ := ⟨rfl, h.start, rfl⟩
  kind_eq _ _ h := h.1.kind
  current _ _ h := h.1.current
  remaining_eq _ _ h := h.1.remaining.symm
  unexpected _ _ h := h.1.unexpected
  unexpectedDetailed _ _ h := h.1.unexpectedDetailed
  next _ _ h hk := ⟨⟨h.1.next, h.2.next⟩, h.2.remaining_next hk⟩
  stay _ _ h _ _ := ⟨h.1.next, h.2.next⟩
  look _ _ h := .inl h
  finish _ _ _ _ hrule _ _ hstart _ _ hns := .branch hrule hstart hns
  kind_of_lost _ h := h.elim
  next_of_lost _ h := h.elim
  finish_of_lost _ h := h.elim

/-! ## Parts of matching trees -/

/-- A tree of the shape, and one that matches it. -/
structure Shape.Pair (S : Position → Position → Prop) (s : Shape) (n n' : Node) : Prop where
  shape : n.shape = s
  matching : n.Matches S n'

/-- The same of lists of trees. -/
inductive Shape.Pairs (S : Position → Position → Prop) :
    List Shape → List Node → List Node → Prop where
  | nil : Pairs S [] [] []
  | cons : s.Pair S n n' → Pairs S ss ns ns' → Pairs S (s :: ss) (n :: ns) (n' :: ns')

theorem Shape.Pairs.length_eq {ss : List Shape} {ns ns' : List Node} (h : Shape.Pairs S ss ns ns') :
    ns.length = ns'.length := by
  induction h with
  | nil => rfl
  | cons _ _ ih => rw [List.length_cons, List.length_cons, ih]

/-- Trees that match have the same shapes. -/
theorem Node.pairs_of_matches {ns ns' : List Node} (h : List.Forall₂ (Node.Matches S) ns ns') :
    Shape.Pairs S (ns.map Node.shape) ns ns' := by
  induction h with
  | nil => exact .nil
  | cons hn _ ih => exact .cons ⟨rfl, hn⟩ ih

namespace Shape

variable {n n' : Node} {rule : Rule} {text : String} {ss : List Shape}

/-- Two leaves that differ in their spans. -/
inductive LeafPair (S : Position → Position → Prop) (rule : Rule) (text : String) :
    Node → Node → Prop where
  | intro {span span' : Span} : S span.start span'.start →
      LeafPair S rule text ⟨rule, text, span, []⟩ ⟨rule, text, span', []⟩

/-- Two branches with their parts side by side. -/
inductive BranchPair (S : Position → Position → Prop) (rule : Rule) (ss : List Shape) :
    Node → Node → Prop where
  | intro {text text' : String} {span span' : Span} {ns ns' : List Node} :
      S span.start span'.start → Pairs S ss ns ns' →
      BranchPair S rule ss ⟨rule, text, span, ns⟩ ⟨rule, text', span', ns'⟩

theorem Pair.start {s : Shape} (h : s.Pair S n n') : S n.start n'.start := h.matching.start

theorem Pair.leaf (h : (Shape.leaf rule text).Pair S n n') : LeafPair S rule text n n' := by
  obtain ⟨hshape, hmatches⟩ := h
  cases hmatches with
  | leaf hrule hstart =>
    rw [Node.shape_of_isLeaf hrule] at hshape
    cases hshape
    exact .intro hstart
  | branch hrule =>
    rw [Node.shape_of_not_isLeaf hrule] at hshape
    cases hshape

theorem Pair.branch (h : (Shape.branch rule ss).Pair S n n') : BranchPair S rule ss n n' := by
  obtain ⟨hshape, hmatches⟩ := h
  cases hmatches with
  | leaf hrule =>
    rw [Node.shape_of_isLeaf hrule] at hshape
    cases hshape
  | branch hrule hstart hchildren =>
    rw [Node.shape_of_not_isLeaf hrule, Node.shapes_eq_map] at hshape
    cases hshape
    exact .intro hstart (Node.pairs_of_matches hchildren)

end Shape

/-! ## Whole sources -/

/-- A list of tokens that ends with the end of the text is all that the cursor sees. -/
theorem EndsOnce.tokens_ofTokens {tokens : List Token} (h : EndsOnce tokens) :
    (Cursor.ofTokens tokens).current :: (Cursor.ofTokens tokens).upcoming = tokens := by
  obtain ⟨body, last, rfl, hlast, -⟩ := h
  cases body <;> simp [Cursor.ofTokens, Cursor.closing, hlast]

/-- Sources with matching tokens have matching trees, or faults in their syntax that match. -/
theorem agree_parse {tokens tokens' : List Token} (source source' : String) (h : EndsOnce tokens)
    (h' : EndsOnce tokens') (htokens : List.Forall₂ (Token.Matches S) tokens tokens') :
    Agree S (Node.MatchesBelow S) (parse tokens source) (parse tokens' source') := by
  have hc : (Cursor.ofTokens tokens).Matches S (Cursor.ofTokens tokens') := by
    rw [Cursor.Matches, h.tokens_ofTokens, h'.tokens_ofTokens]
    exact htokens
  have hremaining := hc.remaining
  have hpos : 0 < (Cursor.ofTokens tokens).remaining := Nat.succ_pos _
  have hends : (Pairing.ofMatches S ⟨.standard, source.toList⟩ ⟨.standard, source'.toList⟩).Ends
      (untilEnd ((⟨.standard, source.toList⟩ : Parser).run (Parser.depth (.ofTokens tokens)) .stmt)
        (Cursor.ofTokens tokens).remaining (.ofTokens tokens))
      (untilEnd ((⟨.standard, source'.toList⟩ : Parser).run (Parser.depth (.ofTokens tokens')) .stmt)
        (Cursor.ofTokens tokens').remaining (.ofTokens tokens')) := by
    refine Pairing.ends_untilEnd rfl rfl (fun _ h => h) (And.intro hc h.ended_ofTokens) ?_ ?_ ?_ ?_
    · rw [Parser.depth]
      omega
    · rw [Parser.depth]
      omega
    · exact Nat.le_refl _
    · exact Nat.le_of_eq hremaining
  rcases hends.exists_eq with ⟨ns, c, ns', c', hr, hr', hns⟩ | ⟨d, c, d', c', hr, hr', hd⟩
  · rw [parse_eq_ok.2 ⟨c, Parser.program_eq_ok.2 ⟨ns, hr, rfl⟩⟩,
      parse_eq_ok.2 ⟨c', Parser.program_eq_ok.2 ⟨ns', hr', rfl⟩⟩]
    exact .ok ⟨rfl, rfl, hns⟩
  · rw [parse_eq_error.2 ⟨c, Parser.program_eq_error.2 hr⟩,
      parse_eq_error.2 ⟨c', Parser.program_eq_error.2 hr'⟩]
    exact .error hd

end Scriptlet
