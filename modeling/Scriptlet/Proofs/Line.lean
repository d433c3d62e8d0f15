import Mathlib.Data.List.DropRight
import Scriptlet.Line

/-!
Lines by bytes. The search for the line that holds a byte goes from line to line, but what it finds
can be said of the bytes alone: it counts the line feeds in front of the byte and measures from the
last one of them. A place beyond the text is the one behind its last byte.
-/

namespace Scriptlet

/-! ## Bytes -/

namespace Text

/-- The bytes of the characters in UTF-8. -/
def bytes (cs : List Char) : List UInt8 := cs.flatMap String.utf8EncodeChar

theorem bytes_cons (c : Char) (cs : List Char) :
    bytes (c :: cs) = String.utf8EncodeChar c ++ bytes cs := rfl

theorem bytes_append (cs ds : List Char) : bytes (cs ++ ds) = bytes cs ++ bytes ds :=
  List.flatMap_append

theorem length_bytes (cs : List Char) : (bytes cs).length = byteLength cs := by
  induction cs with
  | nil => rfl
  | cons c cs ih =>
    rw [bytes_cons, List.length_append, String.length_utf8EncodeChar, ih, byteLength_cons]

theorem utf8EncodeChar_of_lt {c : Char} (h : c.toNat < 128) :
    String.utf8EncodeChar c = [UInt8.ofNat c.toNat] :=
  if_pos (Nat.le_of_lt_succ h)

/-- A character beyond ASCII has no byte of ASCII. -/
theorem le_of_mem_utf8EncodeChar {c : Char} (h : 128 ≤ c.toNat) :
    ∀ b ∈ String.utf8EncodeChar c, 128 ≤ b.toNat := by
  have hhead : ¬c.val.toNat ≤ 127 := Nat.not_le.2 h
  rw [String.utf8EncodeChar, if_neg hhead]
  split
  · simp only [List.forall_mem_cons, UInt8.toNat_ofNat']
    exact ⟨by omega, by omega, List.forall_mem_nil _⟩
  · split
    · simp only [List.forall_mem_cons, UInt8.toNat_ofNat']
      exact ⟨by omega, by omega, by omega, List.forall_mem_nil _⟩
    · simp only [List.forall_mem_cons, UInt8.toNat_ofNat']
      exact ⟨by omega, by omega, by omega, by omega, List.forall_mem_nil _⟩

end Text

open Text

/-- The byte that ends a line. -/
def lineFeed : UInt8 := 10

theorem bytes_newline (cs : List Char) : bytes ('\n' :: cs) = lineFeed :: bytes cs := rfl

theorem lineFeed_notMem_bytes {cs : List Char} (h : '\n' ∉ cs) : lineFeed ∉ bytes cs := by
  intro hmem
  obtain ⟨c, hc, hmem⟩ := List.mem_flatMap.1 hmem
  rcases Nat.lt_or_ge c.toNat 128 with hlt | hge
  · rw [utf8EncodeChar_of_lt hlt, List.mem_singleton, lineFeed, ← UInt8.toNat_inj,
      UInt8.toNat_ofNat', Nat.mod_eq_of_lt (by omega)] at hmem
    have hnewline : c = '\n' := Char.toNat_inj.1 hmem.symm
    exact h (hnewline ▸ hc)
  · exact absurd (le_of_mem_utf8EncodeChar hge _ hmem) (by decide)

/-! ## The ends of a line -/

/-- Where the line with byte `q` begins: behind the last line feed in front of it, if there is
one. -/
def lineStart (bytes : List UInt8) (q : Nat) : Nat :=
  ((bytes.take q).rdropWhile (· ≠ lineFeed)).length

/-- The bytes up to the first line feed, which belongs to them, or all of them. -/
def firstLine (bytes : List UInt8) : List UInt8 :=
  bytes.takeWhile (· ≠ lineFeed) ++ (bytes.dropWhile (· ≠ lineFeed)).take 1

/-- What ends the search from the back keeps all that is in front of it. -/
theorem rdropWhile_append_cons {α : Type} {p : α → Bool} {x : α} (hx : p x = false)
    (front rest : List α) :
    (front ++ x :: rest).rdropWhile p = front ++ x :: rest.rdropWhile p := by
  induction rest using List.reverseRecOn with
  | nil => exact List.rdropWhile_concat_neg _ _ _ (by simp [hx])
  | append_singleton rest y ih =>
    rw [← List.cons_append, ← List.append_assoc]
    cases hy : p y with
    | false =>
      rw [List.rdropWhile_concat_neg _ _ _ (by simp [hy]),
        List.rdropWhile_concat_neg _ _ _ (by simp [hy]), List.append_assoc, List.cons_append]
    | true => rw [List.rdropWhile_concat_pos _ _ _ hy, List.rdropWhile_concat_pos _ _ _ hy, ih]

section

variable {front rest : List UInt8} {q : Nat}

theorem lineStart_eq_zero (h : lineFeed ∉ rest.take q) : lineStart rest q = 0 := by
  rw [lineStart, List.length_eq_zero_iff, List.rdropWhile_eq_nil_iff]
  intro b hb
  exact decide_eq_true (ne_of_mem_of_not_mem hb h)

/-- What is behind a line feed is measured from there. -/
theorem take_append_lineFeed (front rest : List UInt8) (q : Nat) :
    (front ++ lineFeed :: rest).take (front.length + 1 + q) = front ++ lineFeed :: rest.take q := by
  rw [Nat.add_assoc, List.take_length_add_append, Nat.add_comm 1, List.take_succ_cons]

theorem lineStart_append (front rest : List UInt8) (q : Nat) :
    lineStart (front ++ lineFeed :: rest) (front.length + 1 + q) =
      front.length + 1 + lineStart rest q := by
  rw [lineStart, take_append_lineFeed, rdropWhile_append_cons (by decide), List.length_append,
    List.length_cons, lineStart]
  omega

theorem firstLine_of_notMem (h : lineFeed ∉ front) : firstLine front = front := by
  have hall : ∀ b ∈ front, decide (b ≠ lineFeed) = true :=
    fun b hb => decide_eq_true (ne_of_mem_of_not_mem hb h)
  rw [firstLine, List.takeWhile_eq_self_iff.2 hall, List.dropWhile_eq_nil_iff.2 hall, List.take_nil,
    List.append_nil]

theorem firstLine_append (h : lineFeed ∉ front) :
    firstLine (front ++ lineFeed :: rest) = front ++ [lineFeed] := by
  have hall : ∀ b ∈ front, decide (b ≠ lineFeed) = true :=
    fun b hb => decide_eq_true (ne_of_mem_of_not_mem hb h)
  rw [firstLine, List.takeWhile_append_of_pos hall, List.dropWhile_append_of_pos hall,
    List.takeWhile_cons_of_neg (by decide), List.dropWhile_cons_of_neg (by decide), List.append_nil]
  rfl

end

/-! ## Lines of a text -/

/-- A text is its first line and the rest, or has no line feed. -/
theorem lines_induction {motive : List Char → Prop}
    (last : ∀ body, '\n' ∉ body → motive body)
    (line : ∀ body rest, '\n' ∉ body → motive rest → motive (body ++ '\n' :: rest))
    (cs : List Char) : motive cs := by
  induction hn : cs.length using Nat.strongRecOn generalizing cs with
  | ind n ih =>
    by_cases hmem : '\n' ∈ cs
    · obtain ⟨body, rest, rfl, hbody⟩ := List.eq_append_cons_of_mem hmem
      refine line body rest hbody (ih rest.length ?_ rest rfl)
      rw [← hn, List.length_append, List.length_cons]
      omega
    · exact last cs hmem

theorem lines_append (body rest : List Char) (h : '\n' ∉ body) :
    lines (body ++ '\n' :: rest) = (body ++ ['\n']) :: lines rest := by
  induction body with
  | nil => rw [List.nil_append, lines, if_pos rfl, List.nil_append]
  | cons c body ih =>
    obtain ⟨hc, hbody⟩ := not_or.1 (mt List.mem_cons.2 h)
    rw [List.cons_append, lines, if_neg (Ne.symm hc), ih hbody, List.cons_append]

theorem lines_of_notMem {body : List Char} (h : '\n' ∉ body) (hne : body ≠ []) :
    lines body = [body] := by
  induction body with
  | nil => exact absurd rfl hne
  | cons c body ih =>
    obtain ⟨hc, hbody⟩ := not_or.1 (mt List.mem_cons.2 h)
    rw [lines, if_neg (Ne.symm hc)]
    cases body with
    | nil => rfl
    | cons d body => rw [ih hbody (List.cons_ne_nil _ _)]

namespace Line

/-- The line stands in the bytes as the one with byte `q`, if lines are counted from `first`. -/
structure Holds (line : Line) (first : Nat) (bytes : List UInt8) (q : Nat) : Prop where
  number : line.number = first + (bytes.take q).count lineFeed
  column : line.column = q - lineStart bytes q
  text : Text.bytes line.text = firstLine (bytes.drop (lineStart bytes q))

variable {number offset : Nat} {before body rest : List Char}

/-- The line in front is complete, or there is none. -/
def Complete (before : List Char) : Prop := before = [] ∨ before.getLast? = some '\n'

/-- The last line, which has no end: a place beyond it is the one behind it. -/
theorem search_last (hbefore : Complete before) (hbody : '\n' ∉ body) :
    search number before (lines body) offset =
      ⟨number, body, min offset (byteLength body)⟩ := by
  by_cases hne : body = []
  · subst hne
    rw [Complete] at hbefore
    rw [lines, search, atEnd, if_pos hbefore, byteLength_nil, Nat.min_zero]
  · have hopen : ¬(body = [] ∨ body.getLast? = some '\n') := by
      rintro (hnil | hlast)
      · exact hne hnil
      · exact hbody (List.mem_of_getLast? hlast)
    rw [lines_of_notMem hbody hne, search]
    split
    · next hlt => rw [Nat.min_eq_left (Nat.le_of_lt hlt)]
    · next hge =>
      rw [search, atEnd, if_neg hopen, Nat.add_sub_cancel, Nat.min_eq_right (Nat.not_lt.1 hge)]

theorem holds_last (hbefore : Complete before) (hbody : '\n' ∉ body) :
    (search number before (lines body) offset).Holds number (bytes body)
      (min offset (bytes body).length) := by
  have hnone := lineFeed_notMem_bytes hbody
  have hfront : lineFeed ∉ (bytes body).take (min offset (bytes body).length) :=
    fun h => hnone (List.mem_of_mem_take h)
  rw [search_last hbefore hbody]
  refine ⟨?_, ?_, ?_⟩
  · rw [List.count_eq_zero.2 hfront, Nat.add_zero]
  · rw [lineStart_eq_zero hfront, Nat.sub_zero, length_bytes]
  · rw [lineStart_eq_zero hfront, List.drop_zero, firstLine_of_notMem hnone]

/-- A line with its end, and the byte is in it. -/
theorem holds_line (hbody : '\n' ∉ body) (hoffset : offset ≤ (bytes body).length) :
    (⟨number, body ++ ['\n'], offset⟩ : Line).Holds number (bytes body ++ lineFeed :: bytes rest)
      offset := by
  have hnone := lineFeed_notMem_bytes hbody
  have hfront : lineFeed ∉ (bytes body ++ lineFeed :: bytes rest).take offset := by
    rw [List.take_append_of_le_length hoffset]
    exact fun h => hnone (List.mem_of_mem_take h)
  refine ⟨?_, ?_, ?_⟩
  · rw [List.count_eq_zero.2 hfront, Nat.add_zero]
  · rw [lineStart_eq_zero hfront, Nat.sub_zero]
  · rw [lineStart_eq_zero hfront, List.drop_zero, firstLine_append hnone, bytes_append]
    rfl

/-- A line may be put in front, if it has an end. -/
theorem Holds.cons {line : Line} {rest : List UInt8} {q : Nat} (h : line.Holds (number + 1) rest q)
    {front : List UInt8} (hfront : lineFeed ∉ front) :
    line.Holds number (front ++ lineFeed :: rest) (front.length + 1 + q) := by
  refine ⟨?_, ?_, ?_⟩
  · rw [take_append_lineFeed, List.count_append, List.count_eq_zero.2 hfront, List.count_cons_self,
      h.number]
    omega
  · rw [lineStart_append, Nat.add_sub_add_left, h.column]
  · rw [lineStart_append, Nat.add_assoc, List.drop_length_add_append, Nat.add_comm 1,
      List.drop_succ_cons, h.text]

theorem holds_search (hbefore : Complete before) (cs : List Char) :
    (search number before (lines cs) offset).Holds number (bytes cs)
      (min offset (bytes cs).length) := by
  induction cs using lines_induction generalizing number before offset with
  | last body hbody => exact holds_last hbefore hbody
  | line body rest hbody ih =>
    have hlength : byteLength (body ++ ['\n']) = (bytes body).length + 1 := by
      rw [byteLength_append, length_bytes]
      rfl
    rw [lines_append body rest hbody, search, hlength, bytes_append, bytes_newline]
    split
    · next hlt =>
      have hq : min offset (bytes body ++ lineFeed :: bytes rest).length = offset := by
        rw [List.length_append]
        omega
      rw [hq]
      exact holds_line hbody (Nat.le_of_lt_succ hlt)
    · next hge =>
      have hq : min offset (bytes body ++ lineFeed :: bytes rest).length =
          (bytes body).length + 1 +
            min (offset - ((bytes body).length + 1)) (bytes rest).length := by
        rw [List.length_append, List.length_cons]
        omega
      have hcomplete : Complete (body ++ ['\n']) := .inr List.getLast?_concat
      rw [hq]
      exact (ih hcomplete).cons (lineFeed_notMem_bytes hbody)

theorem holds_holding (content : List Char) (position : Nat) :
    (holding content position).Holds 1 (bytes content) (min position (bytes content).length) :=
  holds_search (.inl rfl) content

/-- The line that holds a byte: its number counts the line feeds in front of the byte, its text goes
from behind the last of them to the next one, and the column is measured from there. Beyond the text
this is said of its end. -/
theorem holding_from_lineStart (content : List Char) (position : Nat) :
    let bytes := Text.bytes content
    let q := min position bytes.length
    let b := lineStart bytes q
    let line := holding content position
    line.number = 1 + (bytes.take q).count lineFeed ∧ line.column = q - b ∧
      Text.bytes line.text = firstLine (bytes.drop b) := by
  obtain ⟨hnumber, hcolumn, htext⟩ := holds_holding content position
  exact ⟨hnumber, hcolumn, htext⟩

/-- Inside a character of two bytes, on the last line. -/
example : holding "a\n\nbé".toList 5 = ⟨3, ['b', 'é'], 2⟩ := by decide

end Line

end Scriptlet
