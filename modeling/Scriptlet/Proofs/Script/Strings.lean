import Scriptlet.Proofs.Script.Terminals
import Scriptlet.Proofs.Token.Tiling

/-!
Strings of a script, read as strings of the language. The escapes of the two overlap only partly:
one that the language does not know keeps its backslash. So the text of a string is always one
token, but its value comes back only if all of its controls are tabs or ends of lines.
-/

namespace Scriptlet

open Pattern

/-- Controls that the language has no escape for, though scripts do. -/
def isForeignControl (c : Char) : Bool := c.toNat < 0x20 && c ≠ '\t' && c ≠ '\n' && c ≠ '\r'

/-- What the text of a character in a script is read as. -/
def rereadChar (c : Char) : List Char := if isForeignControl c then scriptChar c else [c]

/-- What the text of a string in a script is read as: unknown escapes stand for themselves. -/
def reread (s : String) : String := String.ofList (s.toList.flatMap rereadChar)

theorem isForeignControl_eq_false_iff {c : Char} :
    isForeignControl c = false ↔ (c.toNat < 0x20 → c = '\t' ∨ c = '\n' ∨ c = '\r') := by
  simp only [isForeignControl, ne_eq, decide_not, Bool.and_eq_false_iff, Bool.not_eq_false',
    decide_eq_true_eq, decide_eq_false_iff_not]
  tauto

theorem toNat_of_isForeignControl {c : Char} (h : isForeignControl c = true) : c.toNat < 0x20 := by
  simp only [isForeignControl, Bool.and_eq_true, decide_eq_true_eq] at h
  exact h.1.1.1

/-! ## Between the quotes -/

/-- Between quotes the text is read as the value, whatever follows. -/
structure ReadInside (text value : List Char) : Prop where
  unescape : ∀ rest, Pattern.unescape (text ++ rest) = value ++ Pattern.unescape rest
  stringLength? : ∀ rest, Pattern.stringLength? (text ++ rest) =
    (Pattern.stringLength? rest).map (· + text.length)

namespace ReadInside

variable {text text' value value' : List Char} {c : Char}

theorem nil : ReadInside [] [] where
  unescape _ := rfl
  stringLength? rest := by simp

theorem append (h : ReadInside text value) (h' : ReadInside text' value') :
    ReadInside (text ++ text') (value ++ value') where
  unescape rest := by rw [List.append_assoc, h.unescape, h'.unescape, List.append_assoc]
  stringLength? rest := by
    rw [List.append_assoc, h.stringLength?, h'.stringLength?, Option.map_map, List.length_append]
    congr 1
    funext n
    simp only [Function.comp_apply]
    omega

theorem char (hquote : c ≠ '"') (hbackslash : c ≠ '\\') (hline : c ≠ '\n') :
    ReadInside [c] [c] where
  unescape rest := by
    rw [List.singleton_append, Pattern.unescape]
    · rfl
    · simp [hbackslash]
  stringLength? rest := by
    rw [List.singleton_append, stringLength?_cons hquote hbackslash, if_neg hline]
    rfl

theorem escape (hline : c ≠ '\n')
    (h : ∀ rest, Pattern.unescape ('\\' :: c :: rest) = value ++ Pattern.unescape rest) :
    ReadInside ['\\', c] value where
  unescape := h
  stringLength? rest := by
    rw [List.cons_append, List.singleton_append, Pattern.stringLength?, if_neg hline]
    rfl

theorem flatMap {write read : Char → List Char} {cs : List Char}
    (h : ∀ c, ReadInside (write c) (read c)) :
    ReadInside (cs.flatMap write) (cs.flatMap read) := by
  induction cs with
  | nil => exact nil
  | cons c cs ih =>
    rw [List.flatMap_cons, List.flatMap_cons]
    exact (h c).append ih

end ReadInside

theorem StandsFor.readInside {text : List Char} {c : Char} (h : StandsFor text c) :
    ReadInside text [c] := by
  rcases h with ⟨d, rfl, hline, hread⟩ | ⟨rfl, hquote, hbackslash, hline⟩
  · exact .escape hline hread
  · exact .char hquote hbackslash hline

theorem digitChar_ne_special {n : Nat} (h : n < 16) :
    Nat.digitChar n ≠ '"' ∧ Nat.digitChar n ≠ '\\' ∧ Nat.digitChar n ≠ '\n' := by
  revert n
  decide

/-- The escape of a control is read as it stands if the language does not know it. -/
theorem readInside_scriptChar (c : Char) : ReadInside (scriptChar c) (rereadChar c) := by
  cases hc : isForeignControl c with
  | false =>
    rw [rereadChar, hc]
    exact (standsFor_scriptChar (isForeignControl_eq_false_iff.1 hc)).readInside
  | true =>
    have hcontrol := toNat_of_isForeignControl hc
    rw [rereadChar, if_pos hc]
    unfold scriptChar
    split
    · exact absurd hc (by decide)
    · exact absurd hc (by decide)
    · exact .escape (by decide) fun rest => by rw [unescape] <;> simp
    · exact absurd hc (by decide)
    · exact absurd hc (by decide)
    · exact .escape (by decide) fun rest => by rw [unescape] <;> simp
    · exact absurd hc (by decide)
    · have hmark : ReadInside ['\\', 'u'] ['\\', 'u'] :=
        .escape (by decide) fun rest => by rw [unescape] <;> simp
      have hzero : ReadInside ['0'] ['0'] := .char (by decide) (by decide) (by decide)
      have hdigit {n : Nat} (hn : n < 16) : ReadInside [n.digitChar] [n.digitChar] := by
        obtain ⟨hquote, hbackslash, hline⟩ := digitChar_ne_special hn
        exact .char hquote hbackslash hline
      rw [if_pos hcontrol]
      exact hmark.append (hzero.append (hzero.append
        ((hdigit (by omega)).append (hdigit (Nat.mod_lt _ (by decide))))))

/-! ## Whole strings -/

/-- A control of this kind is written as an escape. -/
theorem exists_scriptChar_eq_cons {c : Char} (h : isForeignControl c = true) :
    ∃ cs, scriptChar c = '\\' :: cs := by
  unfold scriptChar
  split
  case h_8 =>
    rw [if_pos (toNat_of_isForeignControl h)]
    exact ⟨_, rfl⟩
  all_goals exact ⟨_, rfl⟩

/-- An escape that is kept begins with a backslash, which is no control. -/
theorem flatMap_rereadChar_eq_self_iff {cs : List Char} :
    cs.flatMap rereadChar = cs ↔ ∀ c ∈ cs, isForeignControl c = false := by
  induction cs with
  | nil => simp
  | cons c cs ih =>
    rw [List.flatMap_cons, List.forall_mem_cons, rereadChar]
    cases hc : isForeignControl c with
    | false => simp [ih]
    | true =>
      obtain ⟨more, hmore⟩ := exists_scriptChar_eq_cons hc
      have hbackslash : c ≠ '\\' := by
        rintro rfl
        exact absurd hc (by decide)
      simp [hmore, Ne.symm hbackslash]

theorem reread_eq_self_iff {s : String} :
    reread s = s ↔ ∀ c ∈ s.toList, isForeignControl c = false := by
  rw [← flatMap_rereadChar_eq_self_iff, reread, ← String.toList_inj, String.toList_ofList]

theorem readInside_flatMap_scriptChar (cs : List Char) :
    ReadInside (cs.flatMap scriptChar) (cs.flatMap rereadChar) :=
  .flatMap readInside_scriptChar

/-- The text between the quotes is taken up to the second quote. -/
theorem first?_scriptString (s : String) :
    first? (scriptString s).toList = some (.string, (scriptString s).toList.length) := by
  have hlength : stringLength? (s.toList.flatMap scriptChar ++ ['"']) =
      some (s.toList.flatMap scriptChar ++ ['"']).length := by
    rw [(readInside_flatMap_scriptChar s.toList).stringLength?, List.length_append, Nat.add_comm]
    rfl
  rw [scriptString, String.toList_ofList, List.cons_append, first?_string hlength, List.length_cons]

theorem token?_scriptString (s : String) :
    Pattern.string.token? (scriptString s).toList = some (.string, reread s) := by
  have hread := (readInside_flatMap_scriptChar s.toList).unescape []
  rw [List.append_nil, unescape, List.append_nil] at hread
  rw [scriptString, String.toList_ofList, List.cons_append, token?, List.tail_cons,
    List.dropLast_concat, hread, reread]

/-- The text of a string in a script is one string of the language. Its value is the one that was
written exactly if no controls but tabs and ends of lines are in it. -/
theorem tokenize_script_str (v : String) (file : Option String) :
    tokenize (Literal.str v).script file = .ok
      [⟨.string, reread v, .covering (file.getD Token.defaultFile) 0
          (Text.byteLength (Literal.str v).script.toList)⟩,
        .endOfText ⟨(Text.byteLength (Literal.str v).script.toList).toUInt32,
          file.getD Token.defaultFile⟩] ∧
      (reread v = v ↔ ∀ c ∈ v.toList, c.toNat < 0x20 → c = '\t' ∨ c = '\n' ∨ c = '\r') := by
  constructor
  · have hscan : Token.scan (file.getD Token.defaultFile) 0 (scriptString v).toList = _ :=
      Token.scan_eq_singleton (first?_scriptString v) (token?_scriptString v)
    rwa [Nat.zero_add] at hscan
  · rw [reread_eq_self_iff]
    exact forall₂_congr fun c _ => isForeignControl_eq_false_iff

end Scriptlet
