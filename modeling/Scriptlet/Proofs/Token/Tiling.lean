import Mathlib.Data.List.Forall2
import Scriptlet.Proofs.Token.Extent

/-!
How the tokens of a source lie in it. In order and without meeting they cover all of the text but
blanks and comments, each with the piece of text that it was read from. If scanning fails, the text
before the place where it does has the tokens that were found up to there.
-/

namespace Scriptlet

/-! ## Definitions -/

namespace Span

/-- The offset at which the span begins. -/
def lower (s : Span) : Nat := s.start.offset.toNat

/-- The offset at which the span ends. -/
def upper (s : Span) : Nat := s.stop.offset.toNat

end Span

/-- Blanks and comments before `rest`: runs of blanks, and comments that end with their line. -/
inductive IsGap (rest : List Char) : List Char → Prop where
  | nil : IsGap rest []
  | blanks : bs ≠ [] → (∀ c ∈ bs, Text.isBlank c = true) → IsGap rest gap → IsGap rest (bs ++ gap)
  | comment : (∀ c ∈ line, c ≠ '\n') → (∀ c ∈ (gap ++ rest).head?, c = '\n') → IsGap rest gap →
      IsGap rest ('/' :: '/' :: line ++ gap)

/-- What a token has of its piece of text: the piece itself, or, if it is a string, what stands
between the quotes, without its escapes. -/
def Terminal.WrittenAs (t : Terminal) (lexeme : List Char) : Prop :=
  if t.kind = .string then
    ∃ raw, lexeme = '"' :: raw ++ ['"'] ∧ t.value = String.ofList (Pattern.unescape raw)
  else
    t.value = String.ofList lexeme

namespace Token

/-- Where the text between tokens lies that follows byte `offset`: before each token, from the end
of the one before it. -/
def gaps (offset : Nat) : List Token → List (Nat × Nat)
  | [] => []
  | t :: ts => (offset, t.span.lower) :: gaps t.span.upper ts

/-- From byte `offset` on, scanning the text `taken` before `rest` finds these tokens. -/
inductive Scans (file : String) : Nat → List Char → List Token → List Char → Prop where
  | start : Scans file offset [] [] rest
  | piece : Pattern.first? (lexeme ++ (taken ++ rest)) = some (p, lexeme.length) →
      Scans file (offset + Text.byteLength lexeme) taken found rest →
      Scans file offset (lexeme ++ taken) ((ofLexeme? file offset p lexeme).toList ++ found) rest

/-- The text from byte `offset` on falls into tokens and gaps between them. -/
inductive Tiled (file : String) : Nat → List Char → List Token → Prop where
  | last : IsGap [] gap →
      Tiled file offset gap [endOfText ⟨(offset + Text.byteLength gap).toUInt32, file⟩]
  | token : IsGap (lexeme ++ cs) gap → lexeme ≠ [] → t.kind ≠ .endOfText →
      t.terminal.WrittenAs lexeme →
      t.span = .covering file (offset + Text.byteLength gap) (Text.byteLength lexeme) →
      Tiled file (offset + Text.byteLength gap + Text.byteLength lexeme) cs tokens →
      Tiled file offset (gap ++ (lexeme ++ cs)) (t :: tokens)

end Token

/-- How tokens lie in a text. -/
structure Tiles (source : List Char) (tokens : List Token) : Prop where
  /-- Only the last token ends the text. It is empty and stands at the end. -/
  ended : ∃ body last, tokens = body ++ [last] ∧ last.kind = .endOfText ∧ last.value = "EOF" ∧
    last.span.lower = Text.byteLength source ∧ last.span.upper = Text.byteLength source ∧
    ∀ t ∈ body, t.kind ≠ .endOfText
  nonempty : ∀ t ∈ tokens, t.kind ≠ .endOfText → t.span.lower < t.span.upper
  ordered : tokens.Pairwise fun t u => t.span.upper ≤ u.span.lower
  gap : ∀ g ∈ Token.gaps 0 tokens, ∃ gap rest, Text.slice? g.1 g.2 source = some gap ∧
    Text.dropBytes? g.2 source = some rest ∧ IsGap rest gap
  written : ∀ t ∈ tokens, t.kind ≠ .endOfText → ∃ lexeme,
    Text.slice? t.span.lower t.span.upper source = some lexeme ∧ t.terminal.WrittenAs lexeme

theorem Tiles.within {source : List Char} {tokens : List Token} {t : Token}
    (h : Tiles source tokens) (ht : t ∈ tokens) :
    t.span.lower ≤ t.span.upper ∧ t.span.upper ≤ Text.byteLength source := by
  obtain ⟨body, last, rfl, -, -, hlower, hupper, hbody⟩ := h.ended
  rcases List.mem_append.1 ht with ht' | ht'
  · have hordered := (List.pairwise_append.1 h.ordered).2.2 t ht' last List.mem_cons_self
    exact ⟨Nat.le_of_lt (h.nonempty t ht (hbody t ht')), hlower ▸ hordered⟩
  · cases List.mem_singleton.1 ht'
    omega

namespace Span

variable {file : String} {offset width : Nat}

theorem lower_covering (h : offset < UInt32.size) : (covering file offset width).lower = offset :=
  UInt32.toNat_ofNat_of_lt' h

theorem upper_covering (h : offset + width < UInt32.size) :
    (covering file offset width).upper = offset + width :=
  UInt32.toNat_ofNat_of_lt' h

end Span

/-! ## Single pieces -/

theorem TokenKind.ofWord_ne_string (word : String) : ofWord word ≠ .string := by
  unfold ofWord
  split <;> decide

namespace Pattern

variable {p : Pattern} {cs lexeme : List Char}

theorem Takes.writtenAs {kind : TokenKind} {value : String}
    (h : p.Takes (lexeme ++ cs) lexeme.length) (hp : p ∈ table)
    (ht : p.token? lexeme = some (kind, value)) :
    (⟨kind, value⟩ : Terminal).WrittenAs lexeme := by
  cases p with
  | word =>
    cases ht
    exact (if_neg (TokenKind.ofWord_ne_string _)).mpr rfl
  | number =>
    cases ht
    exact (if_neg (by simp)).mpr rfl
  | string =>
    cases ht
    generalize hes : lexeme ++ cs = es, hn : lexeme.length = n at h
    cases h with
    | string h =>
      obtain ⟨raw, rest, rfl, rfl⟩ := exists_take_of_stringLength? h
      have hsplit : lexeme ++ cs = ('"' :: raw ++ ['"']) ++ rest := by simp [hes]
      obtain ⟨rfl, -⟩ := List.append_inj hsplit (by simp [hn])
      exact (if_pos rfl).mpr ⟨raw, rfl, by simp⟩
  | sign text k =>
    cases ht
    refine (if_neg ?_).mpr rfl
    rintro rfl
    cases sign?_of_mem_table hp
  | blanks | comment => cases ht

/-- What makes no token belongs to the gap. -/
theorem Takes.isGap {gap rest : List Char} (h : p.Takes (lexeme ++ (gap ++ rest)) lexeme.length)
    (ht : p.token? lexeme = none) (hgap : IsGap rest gap) : IsGap rest (lexeme ++ gap) := by
  generalize hes : lexeme ++ (gap ++ rest) = es, hn : lexeme.length = n at h
  cases h with
  | blanks h =>
    subst hes
    obtain ⟨hblank, -⟩ := of_run_append (h.trans hn.symm)
    refine .blanks ?_ hblank hgap
    rintro rfl
    cases hn
  | comment =>
    obtain _ | ⟨c, _ | ⟨d, line⟩⟩ := lexeme
    · cases hn
    · simp at hn
    · rw [List.cons_append, List.cons_append] at hes
      cases hes
      have hrun : run (· ≠ '\n') (line ++ (gap ++ rest)) = line.length := by simpa using hn.symm
      obtain ⟨hline, hend⟩ := of_run_append hrun
      exact .comment (by simpa using hline) (by simpa using hend) hgap
  | word | number | string | sign => cases ht

end Pattern

/-! ## Scanning piece by piece -/

namespace Token

open Outcome Pattern

variable {file : String} {offset : Nat} {p : Pattern} {c : Char}
  {cs lexeme taken rest : List Char} {tokens found : List Token} {t : Token}

theorem scan_nil (file : String) (offset : Nat) :
    scan file offset [] = .ok [endOfText ⟨offset.toUInt32, file⟩] := by
  rw [scan]

theorem scan_of_gap (h : first? (c :: cs) = none) :
    scan file offset (c :: cs) =
      .error ⟨.unrecognisedToken (String.singleton c), ⟨offset.toUInt32, file⟩⟩ := by
  rw [scan]
  split
  · rfl
  · next hsome => cases h.symm.trans hsome

/-- One piece, then the rest of the text. -/
theorem scan_append (h : first? (lexeme ++ cs) = some (p, lexeme.length)) :
    scan file offset (lexeme ++ cs) = (scan file (offset + Text.byteLength lexeme) cs).map
      ((ofLexeme? file offset p lexeme).toList ++ ·) := by
  cases lexeme with
  | nil => exact absurd (first?_pos h) (Nat.lt_irrefl 0)
  | cons c lexeme =>
    rw [List.cons_append] at h ⊢
    rw [scan]
    split
    · next hnone => cases hnone.symm.trans h
    · next q m hsome =>
      cases hsome.symm.trans h
      simp only [← List.cons_append, List.take_left, List.drop_left]
      rfl

theorem scan_append_eq_ok (h : first? (lexeme ++ cs) = some (p, lexeme.length))
    (ht : scan file offset (lexeme ++ cs) = .ok tokens) :
    ∃ more, scan file (offset + Text.byteLength lexeme) cs = .ok more ∧
      tokens = (ofLexeme? file offset p lexeme).toList ++ more := by
  rw [scan_append h] at ht
  cases hmore : scan file (offset + Text.byteLength lexeme) cs with
  | error d =>
    rw [hmore] at ht
    cases ht
  | ok more =>
    rw [hmore] at ht
    cases ht
    exact ⟨more, rfl, rfl⟩

theorem scan_append_token {kind : TokenKind} {value : String}
    (h : first? (lexeme ++ cs) = some (p, lexeme.length)) (ht : p.token? lexeme = some (kind, value))
    (hrest : scan file (offset + Text.byteLength lexeme) cs = .ok tokens) :
    scan file offset (lexeme ++ cs) =
      .ok (⟨kind, value, .covering file offset (Text.byteLength lexeme)⟩ :: tokens) := by
  rw [scan_append h, hrest, ofLexeme?, ht]
  rfl

/-- A text that one pattern takes as a whole is one token. -/
theorem scan_eq_singleton {kind : TokenKind} {value : String}
    (h : first? cs = some (p, cs.length)) (ht : p.token? cs = some (kind, value)) :
    scan file offset cs = .ok [⟨kind, value, .covering file offset (Text.byteLength cs)⟩,
      endOfText ⟨(offset + Text.byteLength cs).toUInt32, file⟩] := by
  have hscan : scan file offset (cs ++ []) = _ :=
    scan_append_token (by rwa [List.append_nil]) ht (scan_nil _ _)
  rwa [List.append_nil] at hscan

/-! ## Tokens and gaps -/

/-- A piece that makes no token lies in a gap. -/
theorem Tiled.skip {piece : List Char}
    (hpiece : ∀ {gap rest}, cs = gap ++ rest → IsGap rest gap → IsGap rest (piece ++ gap))
    (h : Tiled file (offset + Text.byteLength piece) cs tokens) :
    Tiled file offset (piece ++ cs) tokens := by
  cases h with
  | last hgap =>
    rw [Nat.add_assoc, ← Text.byteLength_append]
    exact .last (hpiece (List.append_nil _).symm hgap)
  | token hgap hne hkind hwritten hspan hrest =>
    rw [← List.append_assoc]
    refine .token (hpiece rfl hgap) hne hkind hwritten ?_ ?_
    · rwa [Text.byteLength_append, ← Nat.add_assoc]
    · rwa [Text.byteLength_append, ← Nat.add_assoc]

theorem Tiled.piece (hfirst : first? (lexeme ++ cs) = some (p, lexeme.length))
    (h : Tiled file (offset + Text.byteLength lexeme) cs tokens) :
    Tiled file offset (lexeme ++ cs) ((ofLexeme? file offset p lexeme).toList ++ tokens) := by
  obtain ⟨hp, hlength⟩ := first?_eq_some hfirst
  have htakes := length?_eq_some_iff.1 hlength
  rw [ofLexeme?]
  cases ht : p.token? lexeme with
  | none =>
    refine .skip (fun hcs hgap => ?_) h
    subst hcs
    exact htakes.isGap ht hgap
  | some made =>
    obtain ⟨kind, value⟩ := made
    have hne : lexeme ≠ [] := List.length_pos_iff.1 (first?_pos hfirst)
    have hkind := (token?_coherent hp hlength (by rwa [List.take_left])).2
    exact .token .nil hne hkind (htakes.writtenAs hp ht) rfl h

/-- What is scanned falls into tokens and gaps. -/
theorem tiled_of_scan (h : scan file offset cs = .ok tokens) : Tiled file offset cs tokens := by
  induction cs using pieces_induction generalizing offset tokens with
  | nil =>
    rw [scan_nil] at h
    cases h
    exact .last .nil
  | gap c cs hgap =>
    rw [scan_of_gap hgap] at h
    cases h
  | piece p lexeme cs hfirst ih =>
    obtain ⟨more, hmore, rfl⟩ := scan_append_eq_ok hfirst h
    exact (ih hmore).piece hfirst

/-! ## The places of tokens -/

/-- The last token ends the text, where it has no width. -/
theorem Tiled.ended (h : Tiled file offset cs tokens) :
    ∃ body last, tokens = body ++ [last] ∧ last.kind = .endOfText ∧ last.value = "EOF" ∧
      last.span = .covering file (offset + Text.byteLength cs) 0 ∧
      ∀ t ∈ body, t.kind ≠ .endOfText := by
  induction h with
  | last => exact ⟨[], _, rfl, rfl, rfl, rfl, List.forall_mem_nil _⟩
  | @token _ _ _ _ _ t _ _ hkind _ _ _ ih =>
    obtain ⟨body, last, rfl, hlast, hvalue, hspan, hbody⟩ := ih
    refine ⟨t :: body, last, rfl, hlast, hvalue, ?_, List.forall_mem_cons.2 ⟨hkind, hbody⟩⟩
    simpa only [Text.byteLength_append, Nat.add_assoc] using hspan

/-- A token has its place in the text, and unless it is the last one something stands there. -/
theorem Tiled.place (h : Tiled file offset cs tokens) (ht : t ∈ tokens)
    (hkind : t.kind ≠ .endOfText) :
    ∃ before lexeme after, cs = before ++ (lexeme ++ after) ∧ lexeme ≠ [] ∧
      t.terminal.WrittenAs lexeme ∧
      t.span = .covering file (offset + Text.byteLength before) (Text.byteLength lexeme) := by
  induction h with
  | last =>
    cases List.mem_singleton.1 ht
    exact absurd rfl hkind
  | @token lexeme cs gap _ _ _ _ hne _ hwritten hspan _ ih =>
    rcases List.mem_cons.1 ht with rfl | ht
    · exact ⟨gap, lexeme, cs, rfl, hne, hwritten, hspan⟩
    · obtain ⟨before, piece, after, rfl, hne, hwritten, hspan⟩ := ih ht
      refine ⟨gap ++ lexeme ++ before, piece, after, by simp, hne, hwritten, ?_⟩
      simpa only [Text.byteLength_append, Nat.add_assoc] using hspan

/-- The text at the place of a token is what the token is written as. -/
theorem Tiled.writtenAs (h : Tiled file 0 cs tokens) (hsize : Text.byteLength cs < UInt32.size)
    (ht : t ∈ tokens) (hkind : t.kind ≠ .endOfText) :
    ∃ lexeme, t.terminal.WrittenAs lexeme ∧ t.span.lower < t.span.upper ∧
      Text.slice? t.span.lower t.span.upper cs = some lexeme := by
  obtain ⟨before, lexeme, after, rfl, hne, hwritten, hspan⟩ := h.place ht hkind
  rw [Text.byteLength_append, Text.byteLength_append] at hsize
  rw [Nat.zero_add] at hspan
  have hlower := hspan ▸ Span.lower_covering (by omega)
  have hupper := hspan ▸ Span.upper_covering (by omega)
  have hpos : 0 < Text.byteLength lexeme :=
    Nat.lt_of_lt_of_le (List.length_pos_iff.2 hne) (Text.length_le_byteLength lexeme)
  refine ⟨lexeme, hwritten, by omega, ?_⟩
  rw [hlower, hupper]
  exact Text.slice?_append ..

theorem span_endOfText (file : String) (offset : Nat) :
    (endOfText ⟨offset.toUInt32, file⟩).span = .covering file offset 0 := rfl

/-- Tokens do not overlap, and stand in the order of the text. -/
theorem Tiled.ordered (h : Tiled file offset cs tokens)
    (hsize : offset + Text.byteLength cs < UInt32.size) :
    (∀ t ∈ tokens, offset ≤ t.span.lower) ∧
      tokens.Pairwise fun t u => t.span.upper ≤ u.span.lower := by
  induction h with
  | last =>
    refine ⟨List.forall_mem_singleton.2 ?_, List.pairwise_singleton ..⟩
    rw [span_endOfText, Span.lower_covering hsize]
    exact Nat.le_add_right ..
  | token _ _ _ _ hspan _ ih =>
    simp only [Text.byteLength_append] at hsize
    obtain ⟨hle, hordered⟩ := ih (by omega)
    constructor
    · refine List.forall_mem_cons.2 ⟨?_, fun u hu => ?_⟩
      · rw [hspan, Span.lower_covering (by omega)]
        exact Nat.le_add_right ..
      · have := hle u hu
        omega
    · refine .cons (fun u hu => ?_) hordered
      rw [hspan, Span.upper_covering (by omega)]
      exact hle u hu

/-- Between two tokens there is nothing but blanks and comments. -/
theorem Tiled.gap (before : List Char) (h : Tiled file (Text.byteLength before) cs tokens)
    (hsize : Text.byteLength before + Text.byteLength cs < UInt32.size) :
    ∀ g ∈ gaps (Text.byteLength before) tokens, ∃ gap rest,
      Text.slice? g.1 g.2 (before ++ cs) = some gap ∧
      Text.dropBytes? g.2 (before ++ cs) = some rest ∧ IsGap rest gap := by
  generalize ho : Text.byteLength before = offset at h
  induction h generalizing before with
  | last hgap =>
    subst ho
    refine List.forall_mem_singleton.2 ⟨_, [], ?_, ?_, hgap⟩
    · rw [span_endOfText, Span.lower_covering hsize]
      simpa using Text.slice?_append before _ []
    · rw [span_endOfText, Span.lower_covering hsize, ← Text.byteLength_append]
      simpa using Text.dropBytes?_append (before ++ _) []
  | @token lexeme cs gap _ tokens t hgap _ _ _ hspan _ ih =>
    subst ho
    simp only [Text.byteLength_append] at hsize
    have hlower := hspan ▸ Span.lower_covering (by omega)
    have hupper := hspan ▸ Span.upper_covering (by omega)
    refine List.forall_mem_cons.2 ⟨⟨gap, lexeme ++ cs, ?_, ?_, hgap⟩, ?_⟩
    · rw [hlower]
      exact Text.slice?_append ..
    · rw [hlower, ← List.append_assoc, ← Text.byteLength_append]
      exact Text.dropBytes?_append ..
    · have hrest := ih (before ++ gap ++ lexeme)
      simp only [Text.byteLength_append, List.append_assoc] at hrest
      rw [hupper]
      exact hrest (by omega) (by omega)

/-! ## The tokens found up to a place -/

theorem Scans.scan_eq (h : Scans file offset taken found rest) :
    scan file offset (taken ++ rest) =
      (scan file (offset + Text.byteLength taken) rest).map (found ++ ·) := by
  induction h with
  | @start offset rest =>
    rw [Text.byteLength_nil, Nat.add_zero, List.nil_append]
    cases scan file offset rest <;> rfl
  | @piece lexeme taken rest p offset found hfirst _ ih =>
    rw [List.append_assoc, scan_append hfirst, ih, Text.byteLength_append, Nat.add_assoc]
    cases scan file (offset + (Text.byteLength lexeme + Text.byteLength taken)) rest with
    | error d => rfl
    | ok tokens => simp only [Except.map, List.append_assoc]

/-- What follows the place does not matter to the tokens before it. -/
theorem Scans.cut (h : Scans file offset taken found rest) : Scans file offset taken found [] := by
  induction h with
  | start => exact .start
  | @piece lexeme taken rest p _ _ hfirst _ ih =>
    rw [← List.append_assoc] at hfirst
    have hlexeme := first?_of_append hfirst (by simp)
    exact .piece (by rwa [List.append_nil]) ih

theorem exists_scans (h : Reaches cs taken rest) (file : String) (offset : Nat) :
    ∃ found, Scans file offset taken found rest := by
  induction h generalizing offset with
  | start => exact ⟨[], .start⟩
  | @piece cs p n taken rest hfirst hrest ih =>
    obtain ⟨found, hfound⟩ := ih (offset + Text.byteLength (cs.take n))
    have htake : (cs.take n).length = n := by
      rw [List.length_take, Nat.min_eq_left (first?_le_length hfirst)]
    have hpiece : first? (cs.take n ++ (taken ++ rest)) = some (p, (cs.take n).length) := by
      rw [hrest.append_eq, List.take_append_drop, htake, hfirst]
    exact ⟨_, .piece hpiece hfound⟩

end Token

open Token Pattern

/-- The tokens of a source lie in it in order, with blanks and comments between them. -/
theorem tiles_of_tokenize {source : String} {file : Option String} {tokens : List Token}
    (hsize : Text.byteLength source.toList < UInt32.size)
    (h : tokenize source file = .ok tokens) : Tiles source.toList tokens := by
  have htiled := tiled_of_scan h
  have hsize' : 0 + Text.byteLength source.toList < UInt32.size := by rwa [Nat.zero_add]
  obtain ⟨body, last, hbody, hlast, hvalue, hspan, hkinds⟩ := htiled.ended
  rw [Nat.zero_add] at hspan
  exact {
    ended := ⟨body, last, hbody, hlast, hvalue, by rw [hspan, Span.lower_covering hsize],
      by rw [hspan, Span.upper_covering hsize, Nat.add_zero], hkinds⟩
    nonempty := by
      intro t ht hkind
      obtain ⟨_, _, hlt, _⟩ := htiled.writtenAs hsize ht hkind
      exact hlt
    ordered := (htiled.ordered hsize').2
    gap := Tiled.gap [] htiled hsize'
    written := by
      intro t ht hkind
      obtain ⟨lexeme, hwritten, -, hslice⟩ := htiled.writtenAs hsize ht hkind
      exact ⟨lexeme, hslice, hwritten⟩ }

/-- The tokens of a source lie in it in order, with blanks and comments between them. Where scanning
fails no pattern matches, and the text up to there has the tokens that were found in it. -/
theorem tokenize_tiles_or_stops (source : String) (file : Option String)
    (hsize : Text.byteLength source.toList < UInt32.size) :
    (∀ tokens, tokenize source file = .ok tokens → Tiles source.toList tokens) ∧
      ∀ d, tokenize source file = .error d → ∃ taken rest found, source.toList = taken ++ rest ∧
        rest ≠ [] ∧ d.position.offset.toNat = Text.byteLength taken ∧
        (∀ p ∈ table, p.length? rest = none) ∧
        Scans (file.getD defaultFile) 0 taken found rest ∧
        tokenize (String.ofList taken) file = .ok (found ++ [endOfText d.position]) := by
  refine ⟨fun tokens h => tiles_of_tokenize hsize h, fun d h => ?_⟩
  obtain ⟨taken, rest, hgap, hposition⟩ := firstGap_of_scan h
  obtain ⟨found, hfound⟩ := exists_scans hgap.reached (file.getD defaultFile) 0
  have hlength := hgap.reached.byteLength_eq
  refine ⟨taken, rest, found, hgap.reached.append_eq.symm, hgap.inside, ?_, hgap.gap, hfound, ?_⟩
  · rw [hposition, Nat.zero_add]
    exact UInt32.toNat_ofNat_of_lt' (by omega)
  · have hcut := hfound.cut.scan_eq
    rw [List.append_nil, scan_nil] at hcut
    rw [tokenize, String.toList_ofList, hcut, hposition]
    rfl

/-- A string of three characters in six bytes and a comment that no line ends. -/
def commentedSource : String := "s=\"é\\n\" ;// \"end"

/-- A number with a point but no fraction. -/
def strayPointSource : String := "x1 /*2.// 3"

theorem tiles_commentedSource :
    (∃ tokens, tokenize commentedSource none = .ok tokens ∧
      tokens.map (fun t => (t.value, t.span.lower, t.span.upper)) =
        [("s", 0, 1), ("=", 1, 2), ("é\n", 2, 8), (";", 9, 10), ("EOF", 17, 17)] ∧
      Tiles commentedSource.toList tokens) ∧
    ∃ d, tokenize strayPointSource none = .error d ∧ d.position = ⟨6, "shell"⟩ ∧
      ∃ taken rest found, strayPointSource.toList = taken ++ rest ∧ rest ≠ [] ∧
        d.position.offset.toNat = Text.byteLength taken ∧ (∀ p ∈ table, p.length? rest = none) ∧
        Scans defaultFile 0 taken found rest ∧
        tokenize (String.ofList taken) none = .ok (found ++ [endOfText d.position]) := by
  have hok : (tokenize commentedSource none).toOption.any (fun tokens =>
      tokens.map (fun t => (t.value, t.span.lower, t.span.upper)) =
        [("s", 0, 1), ("=", 1, 2), ("é\n", 2, 8), (";", 9, 10), ("EOF", 17, 17)]) = true := by
    decide +kernel
  have herror : tokenize strayPointSource none =
      .error ⟨.unrecognisedToken ".", ⟨6, "shell"⟩⟩ := by decide +kernel
  obtain ⟨tokens, ht, hplaces⟩ := Outcome.exists_ok_of_any hok
  constructor
  · exact ⟨tokens, ht, hplaces,
      (tokenize_tiles_or_stops commentedSource none (by decide)).1 tokens ht⟩
  · exact ⟨_, herror, rfl, (tokenize_tiles_or_stops strayPointSource none (by decide)).2 _ herror⟩

end Scriptlet
