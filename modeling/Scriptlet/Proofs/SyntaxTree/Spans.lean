import Scriptlet.Proofs.SyntaxTree.Cover
import Scriptlet.Proofs.Token.Tiling

/-!
Spans of syntax trees. A node spans a piece of the source that its parts lie in, in order and
without meeting, and an interior node keeps that piece as its text. All of it follows from the order
of the tokens, for a node begins and ends with tokens of its own.
-/

namespace Scriptlet

/-! ## Cuts -/

namespace Text

/-- The offset is at the end of a character, or at the beginning of the text. -/
def IsBoundary (cs : List Char) (offset : Nat) : Prop :=
  ∃ before after, cs = before ++ after ∧ byteLength before = offset

variable {cs before after piece : List Char} {n start stop : Nat}

/-- What is dropped is a beginning of that many bytes. -/
theorem exists_append_of_dropBytes? (h : dropBytes? n cs = some after) :
    ∃ before, cs = before ++ after ∧ byteLength before = n := by
  fun_induction dropBytes? n cs with
  | case1 cs =>
    cases h
    exact ⟨[], rfl, rfl⟩
  | case2 => cases h
  | case3 n c cs hle ih =>
    obtain ⟨before, rfl, hn⟩ := ih h
    exact ⟨c :: before, rfl, by rw [byteLength_cons]; omega⟩
  | case4 => cases h

theorem exists_append_of_takeBytes? (h : takeBytes? n cs = some piece) :
    ∃ after, cs = piece ++ after ∧ byteLength piece = n := by
  fun_induction takeBytes? n cs generalizing piece with
  | case1 cs =>
    cases h
    exact ⟨cs, rfl, rfl⟩
  | case2 => cases h
  | case3 n c cs hle ih =>
    obtain ⟨piece, hpiece, rfl⟩ := Option.map_eq_some_iff.1 h
    obtain ⟨after, rfl, hn⟩ := ih hpiece
    exact ⟨after, rfl, by rw [byteLength_cons]; omega⟩
  | case4 => cases h

theorem isBoundary_zero (cs : List Char) : IsBoundary cs 0 := ⟨[], cs, rfl, rfl⟩

theorem isBoundary_byteLength (cs : List Char) : IsBoundary cs (byteLength cs) :=
  ⟨cs, [], (List.append_nil cs).symm, rfl⟩

/-- A cut succeeds at boundaries only. -/
theorem isBoundary_of_slice? (h : slice? start stop cs = some piece) (hle : start ≤ stop) :
    IsBoundary cs start ∧ IsBoundary cs stop := by
  obtain ⟨rest, hrest, hpiece⟩ := Option.bind_eq_some_iff.1 h
  obtain ⟨before, rfl, hbefore⟩ := exists_append_of_dropBytes? hrest
  obtain ⟨after, rfl, hlength⟩ := exists_append_of_takeBytes? hpiece
  refine ⟨⟨before, _, rfl, hbefore⟩, before ++ piece, after, by simp, ?_⟩
  rw [byteLength_append]
  omega

/-- A cut succeeds at all boundaries. -/
theorem exists_slice?_of_isBoundary (hstart : IsBoundary cs start) (hstop : IsBoundary cs stop)
    (hle : start ≤ stop) : ∃ piece, slice? start stop cs = some piece := by
  obtain ⟨before, after, rfl, rfl⟩ := hstart
  obtain ⟨before', after', heq, rfl⟩ := hstop
  rcases List.append_eq_append_iff.1 heq with ⟨piece, rfl, rfl⟩ | ⟨piece, rfl, rfl⟩
  · exact ⟨piece, by rw [byteLength_append, slice?_append]⟩
  · have hnil : piece = [] := by
      have := length_le_byteLength piece
      rw [byteLength_append] at hle
      exact List.length_eq_zero_iff.1 (by omega)
    subst hnil
    exact ⟨[], by simpa using slice?_append before' [] after⟩

end Text

/-! ## Spans -/

/-- The node spans a piece of the source and its children lie in there, in order. -/
structure Node.Encloses (source : List Char) (n : Node) : Prop where
  wellFormed : n.span.lower ≤ n.span.upper
  inside : n.span.upper ≤ Text.byteLength source
  /-- An interior node has the piece as its text. -/
  text : n.rule.isLeaf = false →
    Text.slice? n.span.lower n.span.upper source = some n.text.toList
  within : ∀ c ∈ n.children, n.span.lower ≤ c.span.lower ∧ c.span.upper ≤ n.span.upper
  nonempty : ∀ c ∈ n.children, c.span.lower < c.span.upper
  ordered : n.children.Pairwise fun c d => c.span.upper ≤ d.span.lower

/-- Every node of the tree encloses its children. -/
inductive Node.WellSpanned (source : List Char) : Node → Prop where
  | intro : n.Encloses source → (∀ c ∈ n.children, WellSpanned source c) → WellSpanned source n

variable {p : Parser} {source : List Char} {n : Node} {ns : List Node} {t u : Token}
  {ts us : List Token}

/-- The tokens have their places in the source, in order. -/
structure Placed (source : List Char) (ts : List Token) : Prop where
  nonempty : ∀ t ∈ ts, t.span.lower < t.span.upper
  inside : ∀ t ∈ ts, t.span.upper ≤ Text.byteLength source
  boundary : ∀ t ∈ ts, Text.IsBoundary source t.span.lower ∧ Text.IsBoundary source t.span.upper
  ordered : ts.Pairwise fun t u => t.span.upper ≤ u.span.lower

/-- Some of the tokens are placed as all of them are. -/
theorem Placed.sublist (h : Placed source ts) (hsub : us.Sublist ts) : Placed source us where
  nonempty t ht := h.nonempty t (hsub.subset ht)
  inside t ht := h.inside t (hsub.subset ht)
  boundary t ht := h.boundary t (hsub.subset ht)
  ordered := h.ordered.sublist hsub

/-- No token begins before the first. -/
theorem Placed.lower_le (h : Placed source ts) (hfirst : ts.head? = some t) (hu : u ∈ ts) :
    t.span.lower ≤ u.span.lower := by
  obtain ⟨rest, rfl⟩ := List.head?_eq_some_iff.1 hfirst
  rcases List.mem_cons.1 hu with rfl | hu
  · exact Nat.le_refl _
  · have hle := List.rel_of_pairwise_cons h.ordered hu
    have := h.nonempty t List.mem_cons_self
    omega

theorem Placed.le_upper (h : Placed source ts) (hlast : ts.getLast? = some t) (hu : u ∈ ts) :
    u.span.upper ≤ t.span.upper := by
  obtain ⟨rest, rfl⟩ := List.getLast?_eq_some_iff.1 hlast
  rcases List.mem_append.1 hu with hu | hu
  · have hle := (List.pairwise_append.1 h.ordered).2.2 u hu t List.mem_cons_self
    have := h.nonempty t (List.mem_append_right rest List.mem_cons_self)
    omega
  · cases List.mem_singleton.1 hu
    exact Nat.le_refl _

/-- The node begins with one of the tokens and ends with one. -/
def Node.Between (ts : List Token) (n : Node) : Prop :=
  (∃ t ∈ ts, n.span.lower = t.span.lower) ∧ ∃ t ∈ ts, n.span.upper = t.span.upper

/-- A node between tokens is between more of them. -/
theorem Node.Between.mono (h : n.Between ts) (hsub : ts ⊆ us) : n.Between us := by
  obtain ⟨⟨t, ht, hlower⟩, u, hu, hupper⟩ := h
  exact ⟨⟨t, hsub ht, hlower⟩, u, hsub hu, hupper⟩

/-- The text between boundaries is cut out of the source. -/
theorem Parser.slice?_eq_textBetween {start stop : Nat} (hstart : Text.IsBoundary p.source start)
    (hstop : Text.IsBoundary p.source stop) (hle : start ≤ stop)
    (hstop' : stop ≤ Text.byteLength p.source) :
    Text.slice? start stop p.source = some (p.textBetween start stop).toList := by
  obtain ⟨piece, hpiece⟩ := Text.exists_slice?_of_isBoundary hstart hstop hle
  have hmin : min start (Text.byteLength p.source) = start := by omega
  have hmax : max start (min stop (Text.byteLength p.source)) = stop := by omega
  rw [textBetween]
  simp only [hmin, hmax, hpiece, Option.getD_some, String.toList_ofList]

/-- The nodes begin and end with tokens of the list, in order, and span well-formed pieces of the
source. -/
structure Spanned (source : List Char) (ts : List Token) (ns : List Node) : Prop where
  between : ∀ n ∈ ns, n.Between ts
  nonempty : ∀ n ∈ ns, n.span.lower < n.span.upper
  ordered : ns.Pairwise fun n m => n.span.upper ≤ m.span.lower
  wellSpanned : ∀ n ∈ ns, n.WellSpanned source

/-- A node of the tokens in front. -/
theorem Spanned.cons (h : Spanned source ts ns) (hts : Placed source (us ++ ts))
    (hn : n.Between us) (hne : n.span.lower < n.span.upper) (hwell : n.WellSpanned source) :
    Spanned source (us ++ ts) (n :: ns) where
  between := List.forall_mem_cons.2 ⟨hn.mono (List.subset_append_left us ts),
    fun m hm => (h.between m hm).mono (List.subset_append_right us ts)⟩
  nonempty := List.forall_mem_cons.2 ⟨hne, h.nonempty⟩
  ordered := by
    refine .cons (fun m hm => ?_) h.ordered
    obtain ⟨-, t, ht, hupper⟩ := hn
    obtain ⟨⟨u, hu, hlower⟩, -⟩ := h.between m hm
    rw [hupper, hlower]
    exact (List.pairwise_append.1 hts.ordered).2.2 t ht u hu
  wellSpanned := List.forall_mem_cons.2 ⟨hwell, h.wellSpanned⟩

theorem Spanned.mono (h : Spanned source ts ns) (hsub : ts ⊆ us) : Spanned source us ns :=
  { h with between := fun n hn => (h.between n hn).mono hsub }

/-- A node around all of the tokens that its children are made of. -/
theorem Spanned.parent (h : Spanned source ts n.children)
    (hlower : ∀ t ∈ ts, n.span.lower ≤ t.span.lower)
    (hupper : ∀ t ∈ ts, t.span.upper ≤ n.span.upper) (hle : n.span.lower ≤ n.span.upper)
    (hinside : n.span.upper ≤ Text.byteLength source)
    (htext : Text.slice? n.span.lower n.span.upper source = some n.text.toList) :
    n.WellSpanned source := by
  refine .intro ⟨hle, hinside, fun _ => htext, fun c hc => ?_, h.nonempty, h.ordered⟩ h.wellSpanned
  obtain ⟨⟨t, ht, hcl⟩, u, hu, hcu⟩ := h.between c hc
  exact ⟨hcl ▸ hlower t ht, hcu ▸ hupper u hu⟩

/-- A leaf has the span and the text of its token. -/
theorem wellSpanned_leaf {rule : Rule} (hts : Placed source ts) (ht : t ∈ ts)
    (hrule : rule.isLeaf = true) : (ParseM.leaf rule t).WellSpanned source := by
  refine .intro ⟨Nat.le_of_lt (hts.nonempty t ht), hts.inside t ht, fun h => ?_,
    List.forall_mem_nil _, List.forall_mem_nil _, .nil⟩ (List.forall_mem_nil _)
  cases hrule.symm.trans h

/-- Nodes lie in the source as the tokens do that they are made of. -/
theorem Covers.spanned (h : Covers p ts ns) (hts : Placed p.source ts) :
    Spanned p.source ts ns := by
  induction h with
  | nil => exact ⟨List.forall_mem_nil _, List.forall_mem_nil _, .nil, List.forall_mem_nil _⟩
  | @drop ts _ t _ _ ih =>
    exact (ih (hts.sublist (List.sublist_cons_self t ts))).mono (List.subset_cons_self t ts)
  | @leaf rule ts _ t hrule _ ih =>
    have ht : t ∈ [t] := List.mem_cons_self
    have hfirst := hts.sublist (List.sublist_append_left [t] ts)
    exact (ih (hts.sublist (List.sublist_cons_self t ts))).cons hts ⟨⟨t, ht, rfl⟩, t, ht, rfl⟩
      (hfirst.nonempty t ht) (wellSpanned_leaf hfirst ht (TokenKind.isLeaf_of_mem_leafRules hrule))
  | @branch inner _ first last ts _ _ _ _ hfirst hlast _ ihinner ih =>
    have hinner := hts.sublist (List.sublist_append_left inner ts)
    have hfirst' := List.mem_of_mem_head? hfirst
    have hlast' := List.mem_of_getLast? hlast
    have hlt : first.span.lower < last.span.upper :=
      Nat.lt_of_lt_of_le (hinner.nonempty first hfirst') (hinner.le_upper hlast hfirst')
    refine (ih (hts.sublist (List.sublist_append_right inner ts))).cons hts
      ⟨⟨first, hfirst', rfl⟩, last, hlast', rfl⟩ hlt ?_
    refine (ihinner hinner).parent (fun t ht => hinner.lower_le hfirst ht)
      (fun t ht => hinner.le_upper hlast ht) (Nat.le_of_lt hlt) (hinner.inside last hlast') ?_
    exact Parser.slice?_eq_textBetween (hinner.boundary first hfirst').1
      (hinner.boundary last hlast').2 (Nat.le_of_lt hlt) (hinner.inside last hlast')

/-! ## Sources -/

/-- Tokens that tile a source stand one after the other in it. -/
theorem Tiles.placed {body : List Token} {last : Token} (h : Tiles source (body ++ [last]))
    (hbody : ∀ t ∈ body, t.kind ≠ .endOfText) : Placed source body where
  nonempty t ht := h.nonempty t (List.mem_append_left _ ht) (hbody t ht)
  inside t ht := (h.within (List.mem_append_left _ ht)).2
  boundary t ht := by
    obtain ⟨lexeme, hslice, -⟩ := h.written t (List.mem_append_left _ ht) (hbody t ht)
    exact Text.isBoundary_of_slice? hslice (h.within (List.mem_append_left _ ht)).1
  ordered := h.ordered.sublist (List.sublist_append_left ..)

theorem Tiles.lower_last {body : List Token} {last : Token} (h : Tiles source (body ++ [last])) :
    last.span.lower = Text.byteLength source := by
  obtain ⟨body', last', heq, -, -, hlower, -⟩ := h.ended
  cases (List.append_inj' heq rfl).2
  exact hlower

/-- A program ends with its last token, or with the source if it has none. -/
theorem CoversAll.upper_spec {body : List Token} {last : Token} (h : CoversAll p body last n)
    (hplaced : Placed p.source body) (hlast : last.span.lower = Text.byteLength p.source) :
    Text.IsBoundary p.source n.span.upper ∧ n.span.upper ≤ Text.byteLength p.source ∧
      ∀ t ∈ body, t.span.upper ≤ n.span.upper := by
  rw [Span.upper, h.stop]
  cases hbody : body.getLast? with
  | none =>
    cases List.getLast?_eq_none_iff.1 hbody
    rw [Option.map_none, Option.getD_none, ← Span.lower, hlast]
    exact ⟨Text.isBoundary_byteLength _, Nat.le_refl _, List.forall_mem_nil _⟩
  | some t =>
    have ht := List.mem_of_getLast? hbody
    exact ⟨(hplaced.boundary t ht).2, hplaced.inside t ht, fun u hu => hplaced.le_upper hbody hu⟩

/-- The spans of a whole tree, from the cover of its tokens. -/
theorem CoversAll.wellSpanned {body : List Token} {last : Token} (h : CoversAll p body last n)
    (htiles : Tiles p.source (body ++ [last])) (hbody : ∀ t ∈ body, t.kind ≠ .endOfText) :
    n.WellSpanned p.source := by
  have hplaced := htiles.placed hbody
  have hlower : n.span.lower = 0 := by rw [Span.lower, h.start]; rfl
  obtain ⟨hboundary, hinside, hupper⟩ := h.upper_spec hplaced htiles.lower_last
  refine (h.children.spanned hplaced).parent (fun t _ => hlower ▸ Nat.zero_le _) hupper
    (hlower ▸ Nat.zero_le _) hinside ?_
  rw [hlower, h.text]
  exact Parser.slice?_eq_textBetween (Text.isBoundary_zero _) hboundary (Nat.zero_le _) hinside

/-- At every node of the tree of a source the span is well-formed, with the text that belongs to it
and the children inside it in order, wherever there are parentheses and comments. -/
theorem wellSpanned_of_parse {source : String} {file : Option String} {tokens : List Token}
    {tree : Node} (hsize : Text.byteLength source.toList < UInt32.size)
    (ht : tokenize source file = .ok tokens) (hp : parse tokens source = .ok tree) :
    tree.WellSpanned source.toList := by
  obtain ⟨body, last, rfl, -, hbody, htree⟩ := coversAll_of_parse (tokenize_coherent ht).1 hp
  exact htree.wellSpanned (tiles_of_tokenize hsize ht) hbody

/-- The operand to the left loses its parenthesis to the statement, the one to the right keeps
both. -/
def unevenSource : String := "x=(\"é\"+// (\n2)*(3); // )"

theorem wellSpanned_unevenSource : ∃ tokens tree, tokenize unevenSource none = .ok tokens ∧
    parse tokens unevenSource = .ok tree ∧
    (tree.children.flatMap Node.children).map (fun n => (n.text, n.span.lower, n.span.upper)) =
      [("x", 0, 1), ("\"é\"+// (\n2)*(3)", 3, 19)] ∧
    tree.WellSpanned unevenSource.toList := by
  have hread : (tokenize unevenSource none >>= fun tokens =>
      parse tokens unevenSource).toOption.any (fun tree =>
        (tree.children.flatMap Node.children).map (fun n => (n.text, n.span.lower, n.span.upper)) =
          [("x", 0, 1), ("\"é\"+// (\n2)*(3)", 3, 19)]) = true := by decide +kernel
  obtain ⟨tree, htree, hspans⟩ := Outcome.exists_ok_of_any hread
  obtain ⟨tokens, ht, hp⟩ := Outcome.exceptBind_eq_ok.1 htree
  exact ⟨tokens, tree, ht, hp, hspans, wellSpanned_of_parse (by decide) ht hp⟩

end Scriptlet
