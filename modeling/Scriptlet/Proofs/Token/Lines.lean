import Scriptlet.Proofs.Token.Tiling

/-!
Sources line by line. A text that is put after another one on a line of its own is scanned as if it
stood alone, only that its places are shifted; and if the first one fails, the second is not looked
at.
-/

namespace Scriptlet

/-! ## Shifted places -/

/-- The place `k` bytes on. -/
def Position.shift (k : Nat) (p : Position) : Position := ⟨(p.offset.toNat + k).toUInt32, p.file⟩

def Span.shift (k : Nat) (s : Span) : Span := ⟨s.start.shift k, s.stop.shift k⟩

def Token.shift (k : Nat) (t : Token) : Token := { t with span := t.span.shift k }

def Diagnostic.shift (k : Nat) (d : Diagnostic) : Diagnostic :=
  { d with position := d.position.shift k }

variable {file : String} {offset k : Nat}

theorem Position.shift_mk :
    (⟨offset.toUInt32, file⟩ : Position).shift k = ⟨(offset + k).toUInt32, file⟩ := by
  have h : (offset.toUInt32.toNat + k).toUInt32 = (offset + k).toUInt32 := by
    apply UInt32.toNat.inj
    simp [Nat.toUInt32]
  rw [shift, h]

/-- A place in a text that is short enough can be shifted. -/
theorem Position.toNat_shift {p : Position} {size : Nat} (h : p.offset.toNat ≤ size)
    (hsize : size + k < UInt32.size) : (p.shift k).offset.toNat = p.offset.toNat + k :=
  UInt32.toNat_ofNat_of_lt' (Nat.lt_of_le_of_lt (Nat.add_le_add_right h k) hsize)

theorem Span.shift_covering {width : Nat} :
    (covering file offset width).shift k = covering file (offset + k) width := by
  rw [covering, shift, Position.shift_mk, Position.shift_mk, Nat.add_right_comm]
  rfl

namespace Token

open Outcome Pattern

variable {c : Char} {cs ds bs : List Char}

theorem shift_ofLexeme? (p : Pattern) (lexeme : List Char) :
    (ofLexeme? file offset p lexeme).map (shift k) = ofLexeme? file (offset + k) p lexeme := by
  rw [ofLexeme?, ofLexeme?, Option.map_map]
  congr 1
  funext made
  simp only [Function.comp, shift, Span.shift_covering]

/-- Where a text starts matters to the places in it, and to nothing else. -/
theorem scan_add (cs : List Char) : scan file (offset + k) cs =
    ((scan file offset cs).map (List.map (shift k))).mapError (Diagnostic.shift k) := by
  induction cs using pieces_induction generalizing offset with
  | nil =>
    rw [scan_nil, scan_nil, ← Position.shift_mk]
    rfl
  | gap c cs hgap =>
    rw [scan_of_gap hgap, scan_of_gap hgap, ← Position.shift_mk]
    rfl
  | piece p lexeme cs hfirst ih =>
    rw [scan_append hfirst, scan_append hfirst, Nat.add_right_comm, ih, ← shift_ofLexeme?]
    cases scan file (offset + Text.byteLength lexeme) cs with
    | error d => rfl
    | ok tokens =>
      simp only [Except.map, Except.mapError, List.map_append, Option.toList_map]

/-! ## Blanks -/

theorem scan_skip_blanks (cs : List Char) :
    scan file (offset + Text.byteLength (cs.takeWhile Text.isBlank)) (cs.dropWhile Text.isBlank) =
      scan file offset cs := by
  cases cs with
  | nil => rfl
  | cons c cs =>
    cases hc : Text.isBlank c with
    | false => simp [hc]
    | true =>
      have hfirst : first? ((c :: cs).takeWhile Text.isBlank ++ (c :: cs).dropWhile Text.isBlank) =
          some (blanks, ((c :: cs).takeWhile Text.isBlank).length) := by
        rw [List.takeWhile_append_dropWhile]
        exact first?_of_isBlank hc
      have hscan := @scan_append file offset _ _ _ hfirst
      rw [List.takeWhile_append_dropWhile] at hscan
      rw [hscan]
      cases scan file _ _ <;> rfl

/-- Blanks may be skipped one by one. -/
theorem scan_append_of_isBlank (h : ∀ c ∈ bs, Text.isBlank c = true) :
    scan file offset (bs ++ cs) = scan file (offset + Text.byteLength bs) cs := by
  rw [← scan_skip_blanks (bs ++ cs), ← scan_skip_blanks cs, List.takeWhile_append_of_pos h,
    List.dropWhile_append_of_pos h, Text.byteLength_append, Nat.add_assoc]

/-! ## Lines -/

theorem dropLast_append_of_scan {tokens more : List Token} (h : scan file offset cs = .ok more) :
    (tokens ++ more).dropLast = tokens ++ more.dropLast := by
  obtain ⟨body, last, rfl, -⟩ := scan_endsOnce h
  rw [← List.append_assoc, List.dropLast_concat, List.dropLast_concat]

/-- A text and another one on a line of its own: the tokens of both, unless the first one fails. -/
theorem scan_append_newline (cs ds : List Char) : scan file offset (cs ++ '\n' :: ds) =
    scan file offset cs >>= fun tokens =>
      (scan file (offset + Text.byteLength cs + 1) ds).map (tokens.dropLast ++ ·) := by
  have hnewline : ∀ c ∈ ['\n'], Text.isBlank c = true := List.forall_mem_singleton.2 rfl
  induction cs using pieces_induction generalizing offset with
  | nil =>
    rw [List.nil_append, ← List.singleton_append, scan_append_of_isBlank hnewline, scan_nil]
    show scan file (offset + 1) ds = (scan file (offset + 1) ds).map ([] ++ ·)
    cases scan file (offset + 1) ds <;> rfl
  | gap c cs hgap =>
    have hc : Text.isBlank c = false := isBlank_eq_false_of_first? hgap (by simp)
    have hgap' := (first?_append_newline hc cs ds).trans hgap
    rw [List.cons_append] at hgap' ⊢
    rw [scan_of_gap hgap', scan_of_gap hgap]
    rfl
  | piece p lexeme cs hfirst ih =>
    rw [List.append_assoc, Text.byteLength_append, ← Nat.add_assoc]
    by_cases hp : p = blanks
    · -- the blanks may run on beyond the line, so they are skipped one by one
      subst hp
      have hblank := isBlank_of_first?_blanks hfirst
      rw [scan_append_of_isBlank hblank, scan_append_of_isBlank hblank, ih]
    · have hfirst' : first? (lexeme ++ (cs ++ '\n' :: ds)) = some (p, lexeme.length) := by
        cases lexeme with
        | nil => exact absurd (first?_pos hfirst) (Nat.lt_irrefl 0)
        | cons c lexeme =>
          have hc : Text.isBlank c = false := isBlank_eq_false_of_first? hfirst (by simp [hp])
          rw [← hfirst, ← List.append_assoc]
          exact first?_append_newline hc (lexeme ++ cs) ds
      rw [scan_append hfirst', ih, scan_append hfirst]
      cases hscan : scan file (offset + Text.byteLength lexeme) cs with
      | error d => rfl
      | ok tokens =>
        show Except.map _ (Except.map _ _) = Except.map ((_ ++ tokens).dropLast ++ ·) _
        rw [dropLast_append_of_scan hscan]
        cases scan file (offset + Text.byteLength lexeme + Text.byteLength cs + 1) ds with
        | error d => rfl
        | ok more => simp only [Except.map, List.append_assoc]

/-- The tokens other than the one that ends the text. -/
theorem dropLast_of_scan {tokens : List Token} (h : scan file offset cs = .ok tokens) :
    tokens.dropLast = tokens.filter (·.kind ≠ .endOfText) := by
  obtain ⟨body, last, rfl, hlast, hbody⟩ := scan_endsOnce h
  rw [List.dropLast_concat, List.filter_append, List.filter_eq_self.2 (by simpa using hbody)]
  simp [hlast]

end Token

open Token

/-- The bytes of a line, with the one that ends it. -/
def lineLength (s : String) : Nat := Text.byteLength s.toList + 1

section TwoSources

variable {s t : String} {file : Option String}

theorem byteLength_append_newline : Text.byteLength (s ++ "\n" ++ t).toList =
    Text.byteLength t.toList + lineLength s := by
  have hnewline : Text.byteLength "\n".toList = 1 := rfl
  rw [String.toList_append, String.toList_append, Text.byteLength_append, Text.byteLength_append,
    hnewline, Nat.add_comm, lineLength]

theorem tokenize_append_newline_eq : tokenize (s ++ "\n" ++ t) file =
    tokenize s file >>= fun tokens =>
      (((tokenize t file).map (List.map (Token.shift (lineLength s)))).mapError
        (Diagnostic.shift (lineLength s))).map (tokens.dropLast ++ ·) := by
  have htext : (s ++ "\n" ++ t).toList = s.toList ++ '\n' :: t.toList := by simp
  rw [tokenize, htext, scan_append_newline, Nat.add_assoc]
  simp only [scan_add]
  rfl

theorem toNat_position_of_tokenize {d : Diagnostic}
    (hsize : Text.byteLength t.toList < UInt32.size) (h : tokenize t file = .error d) :
    d.position.offset.toNat ≤ Text.byteLength t.toList := by
  obtain ⟨taken, rest, hgap, hposition⟩ := firstGap_of_scan h
  have hle : Text.byteLength taken ≤ Text.byteLength t.toList :=
    hgap.reached.byteLength_eq ▸ Nat.le_add_right ..
  rw [hposition, Nat.zero_add]
  exact (UInt32.toNat_ofNat_of_lt' (Nat.lt_of_le_of_lt hle hsize)).symm ▸ hle

end TwoSources

/-- Sources are scanned line by line: a source that is put after another one on a line of its own
has the tokens or the fault that it has alone, shifted by what is before it. If the one before it
has a fault, so have both. -/
theorem tokenize_append_newline (s t : String) (file : Option String)
    (hsize : Text.byteLength (s ++ "\n" ++ t).toList < UInt32.size) :
    (∀ d, tokenize s file = .error d → tokenize (s ++ "\n" ++ t) file = .error d) ∧
      ∀ tokens, tokenize s file = .ok tokens →
        (∀ more, tokenize t file = .ok more →
          tokenize (s ++ "\n" ++ t) file = .ok (tokens.filter (·.kind ≠ .endOfText) ++
            more.map (Token.shift (lineLength s))) ∧
          ∀ u ∈ more, (u.shift (lineLength s)).span.lower = u.span.lower + lineLength s ∧
            (u.shift (lineLength s)).span.upper = u.span.upper + lineLength s) ∧
        ∀ d, tokenize t file = .error d →
          tokenize (s ++ "\n" ++ t) file = .error (d.shift (lineLength s)) ∧
          (d.shift (lineLength s)).position.offset.toNat =
            d.position.offset.toNat + lineLength s := by
  rw [byteLength_append_newline] at hsize
  have hsize' : Text.byteLength t.toList < UInt32.size := by omega
  have heq := @tokenize_append_newline_eq s t file
  refine ⟨fun d hs => ?_, fun tokens hs =>
    ⟨fun more ht => ⟨?_, fun u hu => ?_⟩, fun d ht => ⟨?_, ?_⟩⟩⟩
  · rw [heq, hs]
    rfl
  · rw [heq, hs, ht, ← dropLast_of_scan hs]
    rfl
  · obtain ⟨hlower, hupper⟩ := (tiles_of_tokenize hsize' ht).within hu
    exact ⟨Position.toNat_shift (Nat.le_trans hlower hupper) hsize,
      Position.toNat_shift hupper hsize⟩
  · rw [heq, hs, ht]
    rfl
  · exact Position.toNat_shift (toNat_position_of_tokenize hsize' ht) hsize

/-- The first line ends in a comment, the second one begins with a blank. -/
theorem tokenize_append_newline_comment :
    tokenize ("x=// é" ++ "\n" ++ " 10;") none = .ok
      [⟨.identifier, "x", .covering "shell" 0 1⟩, ⟨.assignment, "=", .covering "shell" 1 1⟩,
        ⟨.number, "10", .covering "shell" 9 2⟩, ⟨.semicolon, ";", .covering "shell" 11 1⟩,
        endOfText ⟨12, "shell"⟩] ∧
    tokenize ("x=// é" ++ "\n" ++ "y.") none = .error ⟨.unrecognisedToken ".", ⟨9, "shell"⟩⟩ ∧
    tokenize ("y." ++ "\n" ++ " 10;") none = .error ⟨.unrecognisedToken ".", ⟨1, "shell"⟩⟩ := by
  have hs : tokenize "x=// é" none = .ok
      [⟨.identifier, "x", .covering "shell" 0 1⟩, ⟨.assignment, "=", .covering "shell" 1 1⟩,
        endOfText ⟨7, "shell"⟩] := by decide +kernel
  have ht : tokenize " 10;" none = .ok
      [⟨.number, "10", .covering "shell" 1 2⟩, ⟨.semicolon, ";", .covering "shell" 3 1⟩,
        endOfText ⟨4, "shell"⟩] := by decide +kernel
  have hd : tokenize "y." none = .error ⟨.unrecognisedToken ".", ⟨1, "shell"⟩⟩ := by decide +kernel
  refine ⟨?_, ?_, ?_⟩
  · exact (((tokenize_append_newline _ _ none (by decide)).2 _ hs).1 _ ht).1
  · exact (((tokenize_append_newline _ _ none (by decide)).2 _ hs).2 _ hd).1
  · exact (tokenize_append_newline _ _ none (by decide)).1 _ hd

end Scriptlet
