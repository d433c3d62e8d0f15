import Mathlib.Data.List.TakeDrop
import Scriptlet.Diagnostic.Excerpt
import Scriptlet.Proofs.Line

/-!
The arrow of an excerpt. It is drawn from a column in bytes, under a line that has lost the spaces in
front and stands behind its number, and still it ends below the character that the diagnostic is
about, as long as what is in front of that on its line is ASCII.
-/

namespace Scriptlet

open Text

/-! ## The line of a byte -/

section

variable {bytes more : List UInt8} {b : UInt8} {q : Nat}

theorem lineStart_le (bytes : List UInt8) (q : Nat) : lineStart bytes q ≤ q :=
  Nat.le_trans (List.rdropWhile_prefix _ _).length_le (List.length_take_le ..)

theorem drop_lineStart (bytes : List UInt8) (q : Nat) :
    (bytes.take q).drop (lineStart bytes q) = (bytes.take q).rtakeWhile (· ≠ lineFeed) := by
  conv_lhs => arg 2; rw [← @List.rdropWhile_append_rtakeWhile _ (· ≠ lineFeed) (bytes.take q)]
  exact List.drop_left

/-- Between the start of a line and a byte on it there is no line feed. -/
theorem lineFeed_notMem_drop_lineStart (bytes : List UInt8) (q : Nat) :
    lineFeed ∉ (bytes.take q).drop (lineStart bytes q) := by
  rw [drop_lineStart]
  intro h
  simpa using List.mem_rtakeWhile_imp h

theorem firstLine_append_cons {front : List UInt8} (hfront : lineFeed ∉ front) (hb : b ≠ lineFeed) :
    firstLine (front ++ b :: more) = front ++ b :: firstLine more := by
  have hall : ∀ x ∈ front, decide (x ≠ lineFeed) = true :=
    fun x hx => decide_eq_true (ne_of_mem_of_not_mem hx hfront)
  rw [firstLine, List.takeWhile_append_of_pos hall, List.dropWhile_append_of_pos hall,
    List.takeWhile_cons_of_pos (by simpa using hb), List.dropWhile_cons_of_pos (by simpa using hb),
    List.append_assoc, List.cons_append, firstLine]

/-- The bytes of a line around a byte that is no line feed. -/
theorem firstLine_drop_lineStart (hq : bytes[q]? = some b) (hb : b ≠ lineFeed) :
    firstLine (bytes.drop (lineStart bytes q)) =
      (bytes.take q).drop (lineStart bytes q) ++ b :: firstLine (bytes.drop (q + 1)) := by
  obtain ⟨hlt, hget⟩ := List.getElem?_eq_some_iff.1 hq
  have hdivide : bytes.drop (lineStart bytes q) =
      (bytes.take q).drop (lineStart bytes q) ++ b :: bytes.drop (q + 1) := by
    have hle : lineStart bytes q ≤ (bytes.take q).length := by
      rw [List.length_take, Nat.min_eq_left (Nat.le_of_lt hlt)]
      exact lineStart_le bytes q
    rw [← List.drop_append_of_le_length hle, ← hget, ← List.drop_eq_getElem_cons hlt,
      List.take_append_drop]
  rw [hdivide]
  exact firstLine_append_cons (lineFeed_notMem_drop_lineStart bytes q) hb

theorem lineFeed_notMem_dropLast_firstLine (bytes : List UInt8) :
    lineFeed ∉ (firstLine bytes).dropLast := by
  have hfront : lineFeed ∉ bytes.takeWhile (· ≠ lineFeed) := by
    intro h
    simpa using List.mem_takeWhile_imp h
  rw [firstLine]
  cases bytes.dropWhile (· ≠ lineFeed) with
  | nil =>
    rw [List.take_nil, List.append_nil]
    exact fun h => hfront (List.dropLast_subset _ h)
  | cons b more =>
    rw [List.take_succ_cons, List.take_zero, List.dropLast_concat]
    exact hfront

end

namespace Text

variable {cs : List Char} {front more : List UInt8}

theorem exists_cons_of_bytes {b : UInt8} (h : bytes cs = b :: more) (hb : b.toNat < 128) :
    ∃ c ds, cs = c :: ds ∧ c.toNat = b.toNat ∧ bytes ds = more := by
  cases cs with
  | nil => cases h
  | cons c ds =>
    rw [bytes_cons] at h
    rcases Nat.lt_or_ge c.toNat 128 with hlt | hge
    · rw [utf8EncodeChar_of_lt hlt, List.singleton_append] at h
      obtain ⟨rfl, hmore⟩ := List.cons.inj h
      exact ⟨c, ds, rfl, (Nat.mod_eq_of_lt (by omega)).symm, hmore⟩
    · -- its first byte would be of ASCII
      have hne : String.utf8EncodeChar c ≠ [] := by
        rw [← List.length_pos_iff, String.length_utf8EncodeChar]
        exact c.utf8Size_pos
      obtain ⟨x, xs, hx⟩ := List.exists_cons_of_ne_nil hne
      rw [hx, List.cons_append] at h
      obtain ⟨rfl, -⟩ := List.cons.inj h
      have := le_of_mem_utf8EncodeChar hge x (hx ▸ List.mem_cons_self)
      omega

/-- Bytes of ASCII at the front are as many characters. -/
theorem exists_append_of_bytes (h : bytes cs = front ++ more) (hfront : ∀ b ∈ front, b.toNat < 128) :
    ∃ pre post, cs = pre ++ post ∧ pre.length = front.length ∧ bytes pre = front ∧
      bytes post = more := by
  induction front generalizing cs with
  | nil => exact ⟨[], cs, rfl, rfl, rfl, h⟩
  | cons b front ih =>
    obtain ⟨hb, hfront⟩ := List.forall_mem_cons.1 hfront
    obtain ⟨c, ds, rfl, hc, hds⟩ := exists_cons_of_bytes h hb
    obtain ⟨pre, post, rfl, hlength, hpre, hpost⟩ := ih hds hfront
    refine ⟨c :: pre, post, rfl, congrArg (· + 1) hlength, ?_, hpost⟩
    have hbyte : UInt8.ofNat c.toNat = b := by rw [hc, UInt8.ofNat_toNat]
    rw [bytes_cons, utf8EncodeChar_of_lt (hc ▸ hb), hpre, hbyte, List.singleton_append]

theorem newline_notMem_dropLast (h : lineFeed ∉ (bytes cs).dropLast) : '\n' ∉ cs.dropLast := by
  intro hmem
  cases cs using List.reverseRecOn with
  | nil => cases hmem
  | append_singleton cs c =>
    rw [List.dropLast_concat] at hmem
    have hne : bytes [c] ≠ [] := by
      rw [← List.length_pos_iff, length_bytes]
      exact c.utf8Size_pos
    rw [bytes_append, List.dropLast_append_of_ne_nil hne, List.mem_append, not_or] at h
    exact h.1 (List.mem_flatMap.2 ⟨'\n', hmem, by decide⟩)

/-! ## Blanks at the end -/

theorem trimEnd_eq_rdropWhile (cs : List Char) : trimEnd cs = cs.rdropWhile isBlank := rfl

theorem trimEnd_append_cons {c : Char} (hc : isBlank c = false) (front rest : List Char) :
    trimEnd (front ++ c :: rest) = front ++ c :: trimEnd rest :=
  rdropWhile_append_cons hc front rest

theorem exists_trimEnd_append (cs : List Char) :
    ∃ closing, (∀ c ∈ closing, isBlank c = true) ∧ trimEnd cs ++ closing = cs :=
  ⟨cs.rtakeWhile isBlank, fun _ hc => List.mem_rtakeWhile_imp hc,
    List.rdropWhile_append_rtakeWhile⟩

/-- A line feed at the end goes with the blanks. -/
theorem newline_notMem_trimEnd (h : '\n' ∉ cs.dropLast) : '\n' ∉ trimEnd cs := by
  rw [trimEnd_eq_rdropWhile]
  cases cs using List.reverseRecOn with
  | nil => exact List.not_mem_nil
  | append_singleton cs c =>
    rw [List.dropLast_concat] at h
    cases hc : isBlank c with
    | true =>
      rw [List.rdropWhile_concat_pos _ _ _ hc]
      exact fun hmem => h ((List.rdropWhile_prefix _ _).subset hmem)
    | false =>
      have hne : '\n' ≠ c := by
        rintro rfl
        cases hc
      rw [List.rdropWhile_concat_neg _ _ _ (by simp [hc]), List.mem_append, List.mem_singleton]
      exact not_or.2 ⟨h, hne⟩

/-- Nor is there another line feed in what is left of a line. -/
theorem newline_notMem_trimEnd_drop (h : '\n' ∉ cs.dropLast) (n : Nat) :
    '\n' ∉ trimEnd (cs.drop n) := by
  refine newline_notMem_trimEnd fun hmem => h ?_
  rw [List.dropLast_drop_eq_drop_dropLast] at hmem
  exact List.mem_of_mem_drop hmem

end Text

/-! ## Lines of a text -/

theorem splitOn_intercalate_eq_flatMap {texts : List String} (h : texts ≠ []) :
    ("\n".intercalate texts).toList.splitOn '\n' =
      texts.flatMap fun text => text.toList.splitOn '\n' := by
  have hnewline : "\n".toList = ['\n'] := rfl
  rw [String.toList_intercalate, hnewline]
  induction texts with
  | nil => exact absurd rfl h
  | cons text texts ih =>
    cases texts with
    | nil => simp
    | cons text' texts =>
      have hrest := ih (List.cons_ne_nil _ _)
      rw [List.map_cons, List.map_cons, List.intercalate_cons_cons, List.append_assoc,
        List.singleton_append, List.splitOn_append_cons_self, ← List.map_cons, hrest]
      rfl

theorem newline_notMem_toString (n : Nat) : '\n' ∉ (toString n).toList := by
  intro h
  have hdigit := Nat.isDigit_of_mem_toDigits (by decide) (by decide) (Nat.toList_repr ▸ h)
  exact absurd hdigit (by decide)

/-! ## Excerpts -/

theorem toList_padLeft (width : Nat) (fill : Char) (text : String) :
    (padLeft width fill text).toList = List.replicate (width - text.length) fill ++ text.toList := by
  rw [padLeft, String.toList_append, String.toList_ofList]

/-- The bar that stands below the one behind a number of that many digits. -/
def barText (digits : Nat) : List Char := List.replicate (digits + 1) ' ' ++ ['|']

def arrowText (digits dashes : Nat) : List Char :=
  barText digits ++ ' ' :: (List.replicate dashes '-' ++ ['^'])

theorem toList_bar (digits : Nat) : (padLeft (digits + 2) ' ' "|").toList = barText digits :=
  toList_padLeft ..

theorem toList_arrow (digits dashes : Nat) :
    (padLeft (digits + 2) ' ' "|" ++ " " ++ padLeft (dashes + 1) '-' "^").toList =
      arrowText digits dashes := by
  rw [String.toList_append, String.toList_append, toList_bar, toList_padLeft, List.append_assoc]
  rfl

theorem toList_shown (number : String) (text : List Char) :
    (number ++ " | " ++ String.ofList text).toList = (number ++ " | ").toList ++ text := by
  rw [String.toList_append, String.toList_ofList]

theorem newline_notMem_barText (digits : Nat) : '\n' ∉ barText digits := by
  simp [barText]

theorem newline_notMem_arrowText (digits dashes : Nat) : '\n' ∉ arrowText digits dashes := by
  simp [arrowText, barText]

theorem count_arrowText (digits dashes : Nat) : (arrowText digits dashes).count '^' = 1 := by
  simp [arrowText, barText, List.count_append, List.count_replicate]

theorem idxOf_arrowText (digits dashes : Nat) :
    (arrowText digits dashes).idxOf '^' = digits + 3 + dashes := by
  have hfront : arrowText digits dashes =
      (barText digits ++ ' ' :: List.replicate dashes '-') ++ ['^'] := by
    rw [arrowText, List.append_assoc, List.cons_append]
  have hnone : '^' ∉ barText digits ++ ' ' :: List.replicate dashes '-' := by
    simp [barText]
  rw [hfront, List.idxOf_append_of_notMem hnone, List.idxOf_cons_self]
  simp only [barText, List.length_append, List.length_cons, List.length_replicate, List.length_nil]
  omega

/-- The line with byte `p` as an excerpt divides it: the spaces that open it, what is in front of the
character at `p`, that character, and what follows it up to the blanks that close the line. -/
structure ShownAs (bytes : List UInt8) (p : Nat) (opening front : List Char) (c : Char)
    (rest : List Char) : Prop where
  spaces : ∀ x ∈ opening, x = ' '
  noSpace : front.head? ≠ some ' '
  column : byteLength (opening ++ front) = p - lineStart bytes p
  line : ∃ closing, (∀ x ∈ closing, isBlank x = true) ∧
    Text.bytes (opening ++ (front ++ c :: (rest ++ closing))) =
      firstLine (bytes.drop (lineStart bytes p))

section

variable {opening front rest : List Char} {c : Char}

theorem takeWhile_spaces (hopening : ∀ x ∈ opening, x = ' ') (hfront : front.head? ≠ some ' ')
    (hc : c ≠ ' ') : (opening ++ (front ++ c :: rest)).takeWhile (· = ' ') = opening := by
  have hnone : (front ++ c :: rest).takeWhile (· = ' ') = [] := by
    cases front with
    | nil => exact List.takeWhile_cons_of_neg (by simpa using hc)
    | cons x front => exact List.takeWhile_cons_of_neg (by simpa using hfront)
  rw [List.takeWhile_append_of_pos (by simpa using hopening), hnone, List.append_nil]

/-- The excerpt of a line that is divided at a character. -/
theorem Diagnostic.excerpt_eq (d : Diagnostic) (number : Nat) (hopening : ∀ x ∈ opening, x = ' ')
    (hfront : front.head? ≠ some ' ') (hc : isBlank c = false) :
    (d.excerpt ⟨number, opening ++ (front ++ c :: rest), (opening ++ front).length⟩).map
        String.toList =
      [("-> " ++ d.position.file ++ ":" ++ toString number ++ ":" ++
          toString ((opening ++ front).length + 1)).toList,
        barText (toString number).length,
        (toString number ++ " | ").toList ++ (front ++ c :: trimEnd rest),
        arrowText (toString number).length front.length] := by
  have hspace : c ≠ ' ' := by
    rintro rfl
    cases hc
  have hdashes : (opening ++ front).length - opening.length = front.length := by
    rw [List.length_append, Nat.add_sub_cancel_left]
  simp only [Diagnostic.excerpt, takeWhile_spaces hopening hfront hspace, List.drop_left,
    trimEnd_append_cons hc, hdashes, List.map_cons, List.map_nil, toList_bar, toList_arrow,
    toList_shown]

/-- The last three texts of it are one line each. -/
theorem Diagnostic.splitOn_excerpt (d : Diagnostic) (number : Nat)
    (hopening : ∀ x ∈ opening, x = ' ') (hfront : front.head? ≠ some ' ') (hc : isBlank c = false)
    (hnewline : '\n' ∉ front ++ c :: trimEnd rest) :
    (d.excerpt ⟨number, opening ++ (front ++ c :: rest), (opening ++ front).length⟩).flatMap
        (·.toList.splitOn '\n') =
      ("-> " ++ d.position.file ++ ":" ++ toString number ++ ":" ++
          toString ((opening ++ front).length + 1)).toList.splitOn '\n' ++
        [barText (toString number).length,
          (toString number ++ " | ").toList ++ (front ++ c :: trimEnd rest),
          arrowText (toString number).length front.length] := by
  have habove : '\n' ∉ (toString number ++ " | ").toList ++ (front ++ c :: trimEnd rest) := by
    rw [List.mem_append, not_or, String.toList_append, List.mem_append, not_or]
    exact ⟨⟨newline_notMem_toString _, by decide⟩, hnewline⟩
  rw [← List.flatMap_map String.toList, excerpt_eq d number hopening hfront hc]
  simp only [List.flatMap_cons, List.flatMap_nil, List.splitOn_eq_singleton habove,
    List.splitOn_eq_singleton (newline_notMem_barText _),
    List.splitOn_eq_singleton (newline_notMem_arrowText _ _), List.singleton_append]

end

/-- The line of a character in ASCII, with nothing but ASCII in front of it, can be divided there. -/
theorem exists_shownAs {bytes : List UInt8} {p : Nat} {c : Char} {line : List Char}
    (hline : Text.bytes line = firstLine (bytes.drop (lineStart bytes p))) (hascii : c.toNat < 128)
    (hblank : isBlank c = false) (hp : bytes[p]? = some (UInt8.ofNat c.toNat))
    (hfront : ∀ b ∈ (bytes.take p).drop (lineStart bytes p), b.toNat < 128) :
    ∃ opening front rest, line = opening ++ (front ++ c :: rest) ∧
      (opening ++ front).length = p - lineStart bytes p ∧
      ShownAs bytes p opening front c (trimEnd rest) := by
  have hbyte : (UInt8.ofNat c.toNat).toNat = c.toNat := Nat.mod_eq_of_lt (by omega)
  have hne : UInt8.ofNat c.toNat ≠ lineFeed := by
    intro h
    rw [← UInt8.toNat_inj, hbyte] at h
    have hnewline : c = '\n' := Char.toNat_inj.1 h
    rw [hnewline] at hblank
    cases hblank
  have hdivide := hline
  rw [firstLine_drop_lineStart hp hne] at hdivide
  obtain ⟨pre, post, rfl, hlength, hpre, hpost⟩ := exists_append_of_bytes hdivide hfront
  obtain ⟨c', rest, rfl, hc', -⟩ := exists_cons_of_bytes hpost (by omega)
  obtain rfl : c' = c := Char.toNat_inj.1 (hc'.trans hbyte)
  have hsplit : pre.takeWhile (· = ' ') ++ pre.dropWhile (· = ' ') = pre :=
    List.takeWhile_append_dropWhile
  have hcolumn : ((bytes.take p).drop (lineStart bytes p)).length = p - lineStart bytes p := by
    obtain ⟨hlt, -⟩ := List.getElem?_eq_some_iff.1 hp
    rw [List.length_drop, List.length_take, Nat.min_eq_left (Nat.le_of_lt hlt)]
  obtain ⟨closing, hclosing, hrest⟩ := exists_trimEnd_append rest
  refine ⟨pre.takeWhile (· = ' '), pre.dropWhile (· = ' '), rest, ?_, ?_, ?_, ?_, ?_, ?_⟩
  · rw [← List.append_assoc, hsplit]
  · rw [hsplit, hlength, hcolumn]
  · intro x hx
    simpa using List.mem_takeWhile_imp hx
  · intro hhead
    simpa [hhead] using List.head?_dropWhile_not (· = ' ') pre
  · rw [hsplit, ← length_bytes, hpre, hcolumn]
  · refine ⟨closing, hclosing, ?_⟩
    rw [hrest, ← List.append_assoc, hsplit, hline]

namespace Diagnostic

theorem splitOn_render (d : Diagnostic) (source : String) :
    (d.render source).toList.splitOn '\n' =
      d.heading.flatMap (·.toList.splitOn '\n') ++
        (d.excerpt (.holding source.toList d.position.offset.toNat)).flatMap
          (·.toList.splitOn '\n') := by
  have hheading : d.heading ≠ [] := List.cons_ne_nil _ _
  rw [render, splitOn_intercalate_eq_flatMap (List.append_ne_nil_of_left_ne_nil hheading _),
    List.flatMap_append]

/-- The arrow of a diagnostic ends below the character that it is about: the line above shows that
character, and all that is on its line but blanks at the ends, and the arrow has its head at the same
index. The place counts the line feeds before the character and the bytes behind the last of
them. -/
theorem render_points_at (d : Diagnostic) (source : String) (c : Char) (hascii : c.toNat < 128)
    (hblank : isBlank c = false)
    (hc : (Text.bytes source.toList)[d.position.offset.toNat]? = some (UInt8.ofNat c.toNat))
    (hfront : ∀ b ∈ ((Text.bytes source.toList).take d.position.offset.toNat).drop
      (lineStart (Text.bytes source.toList) d.position.offset.toNat), b.toNat < 128) :
    let bytes := Text.bytes source.toList
    let p := d.position.offset.toNat
    let number := toString (1 + (bytes.take p).count lineFeed)
    let place := "-> " ++ d.position.file ++ ":" ++ number ++ ":" ++
      toString (1 + (p - lineStart bytes p))
    ∃ opening front rest bar arrow, ShownAs bytes p opening front c rest ∧
      (d.render source).toList.splitOn '\n' =
        d.heading.flatMap (·.toList.splitOn '\n') ++ (place.toList.splitOn '\n' ++
          [bar, (number ++ " | ").toList ++ (front ++ c :: rest), arrow]) ∧
      arrow.count '^' = 1 ∧ arrow.idxOf '^' = ((number ++ " | ").toList ++ front).length := by
  intro bytes p number place
  have hlt : p < bytes.length := (List.getElem?_eq_some_iff.1 hc).1
  have hholds := Line.holds_holding source.toList p
  rw [Nat.min_eq_left (Nat.le_of_lt hlt)] at hholds
  obtain ⟨opening, front, rest, htext, hcolumn, hshown⟩ :=
    exists_shownAs hholds.text hascii hblank hc hfront
  have hnewline : '\n' ∉ front ++ c :: trimEnd rest := by
    have hlast := newline_notMem_dropLast (hholds.text ▸ lineFeed_notMem_dropLast_firstLine _)
    have hshow := newline_notMem_trimEnd_drop hlast opening.length
    rwa [htext, List.drop_left, trimEnd_append_cons hblank] at hshow
  have hline : Line.holding source.toList p =
      ⟨1 + (bytes.take p).count lineFeed, opening ++ (front ++ c :: rest),
        (opening ++ front).length⟩ := by
    rw [← htext, hcolumn, ← hholds.number, ← hholds.column]
  refine ⟨opening, front, trimEnd rest, barText number.length, arrowText number.length front.length,
    hshown, ?_, count_arrowText .., ?_⟩
  · rw [splitOn_render, hline,
      splitOn_excerpt d _ hshown.spaces hshown.noSpace hblank hnewline, hcolumn,
      Nat.add_comm (p - lineStart bytes p)]
  · rw [idxOf_arrowText, List.length_append, String.length_toList, String.length_append]
    rfl

/-- A name that is used on a line with spaces and a tab in front, and blanks behind. -/
def indentedSource : String := "let x = 1;\n  \tprint(y);  \n"

def indentedDiagnostic : Diagnostic := ⟨.undeclaredName "y", ⟨20, "demo"⟩⟩

theorem render_points_at_indentedSource : (Text.bytes indentedSource.toList)[20]? = some 121 ∧
    ∃ opening front rest bar arrow,
      ShownAs (Text.bytes indentedSource.toList) 20 opening front 'y' rest ∧
      (indentedDiagnostic.render indentedSource).toList.splitOn '\n' =
        indentedDiagnostic.heading.flatMap (·.toList.splitOn '\n') ++
          ("-> demo:2:10".toList.splitOn '\n' ++ [bar, "2 | ".toList ++ (front ++ 'y' :: rest), arrow]) ∧
      arrow.count '^' = 1 ∧ arrow.idxOf '^' = ("2 | ".toList ++ front).length := by
  have hbyte : (Text.bytes indentedSource.toList)[20]? = some 121 := by decide +kernel
  have hnumber : 1 + ((Text.bytes indentedSource.toList).take 20).count lineFeed = 2 := by
    decide +kernel
  have hstart : lineStart (Text.bytes indentedSource.toList) 20 = 11 := by decide +kernel
  have hpoints := render_points_at indentedDiagnostic indentedSource 'y' (by decide) (by decide) hbyte
    (by decide +kernel)
  have hoffset : indentedDiagnostic.position.offset.toNat = 20 := rfl
  simp only [hoffset, hnumber, hstart] at hpoints
  exact ⟨hbyte, hpoints⟩

end Diagnostic

end Scriptlet
