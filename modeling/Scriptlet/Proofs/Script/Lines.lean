import Scriptlet.Proofs.Script.Literals
import Scriptlet.Proofs.Script.Strings

/-!
The lines of a script. No text of an expression holds a line feed or begins with a blank, whatever
its strings hold, so a script has the lines that were emitted and each is indented by its depth. From
the end of a line alone one sees whether it is a statement, opens a block or closes one, and so the
nesting of the statements can be read from the lines.
-/

namespace Scriptlet

open Outcome

/-! ## Forms -/

/-- Statements with others inside. -/
inductive BlockKind where
  | function
  | loop
deriving DecidableEq, Repr

/-- How the first line of a block begins. -/
def BlockKind.opening : BlockKind → List Char
  | function => "function ".toList
  | loop => "while (".toList

/-- A statement of which there is left what it is and what is inside. -/
inductive Form where
  | simple
  | block (kind : BlockKind) (body : List Form)
deriving Repr

namespace Form

mutual

def lineCount : Form → Nat
  | simple => 1
  | block _ body => lineCountAll body + 2

/-- A line for a simple statement and two for a block, besides those inside. -/
def lineCountAll : List Form → Nat
  | [] => 0
  | f :: fs => f.lineCount + lineCountAll fs

end

end Form

namespace Stmt

mutual

def form : Stmt → Form
  | loop _ body => .block .loop (forms body)
  | funDec _ body => .block .function (forms body)
  | _ => .simple

def forms : List Stmt → List Form
  | [] => []
  | s :: ss => s.form :: forms ss

end

/-- Folding leaves the form of a program. -/
theorem forms_foldAll (ss : List Stmt) : forms (foldAll ss) = forms ss := by
  induction ss using Stmt.induction (P := fun s => s.fold.form = s.form) with
  | step s ih =>
    cases s with
    | loop test body => exact congrArg (Form.block .loop) ih
    | funDec f body => exact congrArg (Form.block .function) ih
    | _ => rfl
  | nil => rfl
  | cons s ss hs ih => rw [foldAll, forms, forms, hs, ih]

end Stmt

/-! ## Lines -/

/-- A text that can follow the blanks at the left and stays on its line. -/
structure IsInline (text : List Char) : Prop where
  line : '\n' ∉ text
  start : ∃ c cs, text = c :: cs ∧ c ≠ ' '

/-- The first line of a block. -/
structure IsHead (kind : BlockKind) (text : List Char) : Prop where
  line : '\n' ∉ text
  opening : kind.opening <+: text
  last : text.getLast? = some '\x7b'

/-- The blanks at the left. -/
def blanks (depth : Nat) : List Char := List.replicate (2 * depth) ' '

/-- The lines that show statements at a depth. -/
inductive ShownAt : Nat → List Form → List (List Char) → Prop
  | nil {depth : Nat} : ShownAt depth [] []
  | simple {depth : Nat} {text : List Char} {forms : List Form} {lines : List (List Char)} :
      IsInline text → text.getLast? = some ';' → ShownAt depth forms lines →
        ShownAt depth (.simple :: forms) ((blanks depth ++ text) :: lines)
  | block {depth : Nat} {kind : BlockKind} {head : List Char} {body forms : List Form}
      {inner lines : List (List Char)} :
      IsHead kind head → ShownAt (depth + 1) body inner → ShownAt depth forms lines →
        ShownAt depth (.block kind body :: forms)
          ((blanks depth ++ head) :: (inner ++ (blanks depth ++ ['\x7d']) :: lines))

namespace ShownAt

variable {depth : Nat} {forms forms' : List Form} {lines lines' : List (List Char)}

theorem append (h : ShownAt depth forms lines) (h' : ShownAt depth forms' lines') :
    ShownAt depth (forms ++ forms') (lines ++ lines') := by
  induction h with
  | nil => exact h'
  | simple htext hlast _ ih => exact .simple htext hlast (ih h')
  | block hhead hinner _ _ ih =>
    rw [List.cons_append, List.cons_append, List.append_assoc, List.cons_append]
    exact .block hhead hinner (ih h')

theorem lines_ne_nil (h : ShownAt depth forms lines) (hne : forms ≠ []) : lines ≠ [] := by
  cases h with
  | nil => exact absurd rfl hne
  | _ => exact List.cons_ne_nil _ _

/-- Each form takes as many lines as it says. -/
theorem length_eq (h : ShownAt depth forms lines) : lines.length = Form.lineCountAll forms := by
  induction h with
  | nil => rfl
  | simple _ _ _ ih =>
    rw [List.length_cons, ih, Form.lineCountAll, Form.lineCount, Nat.add_comm]
  | block _ _ _ ihinner ih =>
    rw [List.length_cons, List.length_append, List.length_cons, ih, ihinner, Form.lineCountAll,
      Form.lineCount]
    omega

/-- No line holds a line break. -/
theorem newline_notMem (h : ShownAt depth forms lines) : ∀ line ∈ lines, '\n' ∉ line := by
  have hblanks (depth : Nat) {text : List Char} (htext : '\n' ∉ text) :
      '\n' ∉ blanks depth ++ text := by
    rw [List.mem_append, blanks, List.mem_replicate]
    rintro (⟨-, hblank⟩ | hmem)
    · exact absurd hblank (by decide)
    · exact htext hmem
  induction h with
  | nil => exact fun _ hline => absurd hline List.not_mem_nil
  | simple htext _ _ ih => exact List.forall_mem_cons.2 ⟨hblanks _ htext.line, ih⟩
  | block hhead _ _ ihinner ih =>
    refine List.forall_mem_cons.2 ⟨hblanks _ hhead.line, List.forall_mem_append.2 ⟨ihinner, ?_⟩⟩
    exact List.forall_mem_cons.2 ⟨hblanks _ (by decide), ih⟩

end ShownAt

/-! ## Reading -/

inductive LineKind where
  | simple
  | opens (kind : BlockKind)
  | closes

/-- What a line is, which its end tells, and the kind of a block its beginning. -/
def LineKind.ofLine? (line : List Char) : Option LineKind :=
  let text := line.dropWhile (· == ' ')
  match text.getLast? with
  | some ';' => some .simple
  | some '\x7b' =>
    ([BlockKind.function, .loop].find? fun kind => kind.opening.isPrefixOf text).map .opens
  | some '\x7d' => some .closes
  | _ => none

namespace Form

/-- Reads lines inside of open blocks, each with the statements before it. -/
def readFrom (outer : List (BlockKind × List Form)) (done : List Form) :
    List (List Char) → Option (List Form)
  | [] => if outer.isEmpty then some done else none
  | line :: lines =>
    match LineKind.ofLine? line, outer with
    | some .simple, outer => readFrom outer (done ++ [simple]) lines
    | some (.opens kind), outer => readFrom ((kind, done) :: outer) [] lines
    | some .closes, (kind, before) :: outer => readFrom outer (before ++ [block kind done]) lines
    | _, _ => none

section

variable {outer : List (BlockKind × List Form)} {done : List Form} {line : List Char}
  {lines : List (List Char)}

theorem readFrom_simple (h : LineKind.ofLine? line = some .simple) :
    readFrom outer done (line :: lines) = readFrom outer (done ++ [simple]) lines := by
  rw [readFrom.eq_def]
  simp only [h]

theorem readFrom_opens {kind : BlockKind} (h : LineKind.ofLine? line = some (.opens kind)) :
    readFrom outer done (line :: lines) = readFrom ((kind, done) :: outer) [] lines := by
  rw [readFrom.eq_def]
  simp only [h]

theorem readFrom_closes {kind : BlockKind} {before : List Form}
    (h : LineKind.ofLine? line = some .closes) :
    readFrom ((kind, before) :: outer) done (line :: lines) =
      readFrom outer (before ++ [block kind done]) lines := by
  rw [readFrom.eq_def]
  simp only [h]

end

/-- The statements that lines show, if they do. -/
def read? (lines : List (List Char)) : Option (List Form) := readFrom [] [] lines

end Form

theorem dropWhile_blanks {text : List Char} (h : ∃ c cs, text = c :: cs ∧ c ≠ ' ') (depth : Nat) :
    (blanks depth ++ text).dropWhile (· == ' ') = text := by
  obtain ⟨c, cs, rfl, hc⟩ := h
  rw [blanks, List.dropWhile_append_of_pos, List.dropWhile_cons_of_neg]
  · simpa using hc
  · intro x hx
    rw [List.eq_of_mem_replicate hx]
    rfl

theorem LineKind.ofLine?_simple {text : List Char} (h : IsInline text)
    (hlast : text.getLast? = some ';') (depth : Nat) :
    ofLine? (blanks depth ++ text) = some .simple := by
  rw [ofLine?, dropWhile_blanks h.start, hlast]
  rfl

theorem LineKind.ofLine?_closing (depth : Nat) :
    ofLine? (blanks depth ++ ['\x7d']) = some .closes := by
  rw [ofLine?, dropWhile_blanks ⟨_, _, rfl, by decide⟩]
  rfl

/-- A line that opens a block is told by its first word and its last sign. -/
theorem LineKind.ofLine?_head {kind : BlockKind} {text : List Char} (h : IsHead kind text)
    (depth : Nat) : ofLine? (blanks depth ++ text) = some (.opens kind) := by
  obtain ⟨rest, hrest⟩ := h.opening
  have hstart : ∃ c cs, text = c :: cs ∧ c ≠ ' ' := by
    rw [← hrest]
    cases kind <;> exact ⟨_, _, rfl, by decide⟩
  rw [ofLine?, dropWhile_blanks hstart, h.last, ← hrest]
  cases kind <;> rfl

/-- Lines that show statements add these to what has been read. -/
theorem ShownAt.readFrom_append {depth : Nat} {forms : List Form} {lines : List (List Char)}
    (h : ShownAt depth forms lines) (outer : List (BlockKind × List Form)) (done : List Form)
    (rest : List (List Char)) :
    Form.readFrom outer done (lines ++ rest) = Form.readFrom outer (done ++ forms) rest := by
  induction h generalizing outer done rest with
  | nil => rw [List.append_nil, List.nil_append]
  | simple htext hlast _ ih =>
    rw [List.cons_append, Form.readFrom_simple (LineKind.ofLine?_simple htext hlast _), ih,
      List.append_assoc, List.singleton_append]
  | block hhead _ _ ihinner ih =>
    -- what was read before the block waits until the line that closes it
    rw [List.cons_append, Form.readFrom_opens (LineKind.ofLine?_head hhead _), List.append_assoc,
      ihinner, List.cons_append, Form.readFrom_closes (LineKind.ofLine?_closing _), ih,
      List.nil_append, List.append_assoc, List.singleton_append]

/-- The forms are read back from the lines, as no line can be taken for another kind. -/
theorem ShownAt.read?_eq {depth : Nat} {forms : List Form} {lines : List (List Char)}
    (h : ShownAt depth forms lines) : Form.read? lines = some forms := by
  have hread := h.readFrom_append [] [] []
  rwa [List.append_nil, List.nil_append, Form.readFrom] at hread

/-! ## Texts -/

namespace IsInline

variable {text more : List Char}

theorem append (h : IsInline text) (hmore : '\n' ∉ more) : IsInline (text ++ more) := by
  obtain ⟨hline, c, cs, rfl, hc⟩ := h
  exact ⟨fun hmem => (List.mem_append.1 hmem).elim hline hmore, c, cs ++ more, rfl, hc⟩

theorem cons {c : Char} (hc : c ≠ ' ') (hline : c ≠ '\n') (htext : '\n' ∉ text) :
    IsInline (c :: text) :=
  ⟨List.not_mem_cons_of_ne_of_not_mem hline.symm htext, c, text, rfl, hc⟩

theorem plain (text : String) (h : text.toList.head?.any (· ≠ ' ') = true)
    (hline : '\n' ∉ text.toList) : IsInline text.toList := by
  refine ⟨hline, ?_⟩
  cases htext : text.toList with
  | nil =>
    rw [htext] at h
    cases h
  | cons c cs =>
    rw [htext] at h
    exact ⟨c, cs, rfl, by simpa using h⟩

theorem of_isWordPart (hne : text ≠ []) (h : ∀ c ∈ text, Pattern.isWordPart c = true) :
    IsInline text := by
  obtain ⟨c, cs, rfl⟩ := List.exists_cons_of_ne_nil hne
  refine ⟨fun hmem => absurd (h _ hmem) (by decide), c, cs, rfl, ?_⟩
  rintro rfl
  exact absurd (h ' ' (List.mem_cons_self ..)) (by decide)

theorem of_isDigit (hne : text ≠ []) (h : ∀ c ∈ text, c.isDigit = true) : IsInline text :=
  of_isWordPart hne fun c hc => isWordPart_of_isDigit (h c hc)

theorem signed (h : IsInline text) (negative : Bool) : IsInline (Layout.signed negative text) := by
  cases negative with
  | false => exact h
  | true => exact cons (by decide) (by decide) h.line

end IsInline

theorem IsWord.isInline {name : String} (h : IsWord name) : IsInline name.toList :=
  .of_isWordPart h.ne_nil h.parts

theorem NumberParts.Canonical.isInline_text {p : NumberParts} (h : p.Canonical) :
    IsInline p.text := by
  refine (IsInline.of_isDigit h.digits.1 h.digits.2).append ?_
  rw [List.mem_append, not_or, fractionText, powerText]
  constructor
  · cases hf : p.fraction with
    | none => exact List.not_mem_nil
    | some ds =>
      obtain ⟨hne, hdigits, -⟩ := h.fraction ds hf
      exact List.not_mem_cons_of_ne_of_not_mem (by decide) (IsInline.of_isDigit hne hdigits).line
  · cases hp : p.power with
    | none => exact List.not_mem_nil
    | some cs =>
      obtain ⟨sign, ds, rfl, hsign, hne, hdigits, -⟩ := h.power cs hp
      refine List.not_mem_cons_of_ne_of_not_mem (by decide)
        (List.not_mem_cons_of_ne_of_not_mem ?_ (IsInline.of_isDigit hne hdigits).line)
      rcases hsign with rfl | rfl <;> decide

theorem isInline_scriptNumber (x : Float) : IsInline (scriptNumber x).toList := by
  have hnormal := Reading.normal_ofFloat x
  rw [scriptNumber, Layout.ofFloat, String.toList_ofList, Reading.text_eq_signed]
  refine IsInline.signed ?_ _
  cases hread : Reading.ofFloat x with
  | nan => exact .cons (by decide) (by decide) (by decide)
  | infinite negative => exact .cons (by decide) (by decide) (by decide)
  | zero negative => exact .cons (by decide) (by decide) (by decide)
  | finite negative b =>
    rw [hread] at hnormal
    obtain ⟨p, htext, hp⟩ := Binary.Normal.exists_hasParts hnormal
    rw [Reading.unsigned, htext]
    exact hp.canonical.isInline_text

/-- A line feed in a string is written as an escape. -/
theorem newline_notMem_scriptChar (c : Char) : '\n' ∉ scriptChar c := by
  unfold scriptChar
  split
  case h_8 hline _ _ =>
    split
    · next hcontrol =>
      have hhigh := (digitChar_ne_special (n := c.toNat / 16) (by omega)).2.2
      have hlow := (digitChar_ne_special (n := c.toNat % 16) (by omega)).2.2
      simp [hhigh.symm, hlow.symm]
    · exact fun hmem => hline (List.mem_singleton.1 hmem).symm
  all_goals decide

/-- A string is written on one line. -/
theorem isInline_scriptString (s : String) : IsInline (scriptString s).toList := by
  have hinside : '\n' ∉ s.toList.flatMap scriptChar := by
    intro hmem
    obtain ⟨c, -, hc⟩ := List.mem_flatMap.1 hmem
    exact newline_notMem_scriptChar c hc
  rw [scriptString, String.toList_ofList]
  exact (IsInline.cons (by decide) (by decide) hinside).append (by decide)

theorem Literal.isInline_script (a : Literal) : IsInline a.script.toList := by
  cases a with
  | number x => exact isInline_scriptNumber x
  | bigInt n =>
    obtain ⟨c, cs, hdigits, hcs⟩ := exists_toDigits n.val.natAbs
    have htext : IsInline (toString n.val).toList := by
      rw [toList_toString_int, hdigits]
      exact (IsInline.of_isDigit (List.cons_ne_nil c cs) hcs).signed _
    rw [script, String.toList_append]
    exact htext.append (by decide)
  | str s => exact isInline_scriptString s
  | bool value => cases value <;> exact .cons (by decide) (by decide) (by decide)
  | null => exact .cons (by decide) (by decide) (by decide)
  | undefined => exact .cons (by decide) (by decide) (by decide)

theorem newline_notMem_intercalate {texts : List String}
    (h : ∀ text ∈ texts, '\n' ∉ text.toList) : '\n' ∉ (", ".intercalate texts).toList := by
  have hseparator : ", ".toList = [',', ' '] := rfl
  rw [String.toList_intercalate, hseparator]
  induction texts with
  | nil => exact List.not_mem_nil
  | cons text texts ih =>
    obtain ⟨htext, htexts⟩ := List.forall_mem_cons.1 h
    cases texts with
    | nil => simpa using htext
    | cons text' texts =>
      have hrest := ih htexts
      rw [List.map_cons] at hrest
      simp [List.intercalate_cons_cons, htext, hrest]

namespace Expr

variable {Φ : List Signature} {Γ : List Variable}

theorem mem_scripts {r : Renaming} {es : List Expr} {text : String} :
    text ∈ scripts r es ↔ ∃ e ∈ es, e.script r = text := by
  induction es with
  | nil => simp [scripts]
  | cons e es ih => simp [scripts, ih, eq_comm]

theorem newline_notMem_scripts {r : Renaming} {es : List Expr}
    (h : ∀ e ∈ es, IsInline (e.script r).toList) :
    '\n' ∉ (", ".intercalate (scripts r es)).toList := by
  refine newline_notMem_intercalate fun text htext => ?_
  obtain ⟨e, he, rfl⟩ := mem_scripts.1 htext
  exact (h e he).line

/-- A call is on one line if its arguments are. -/
theorem isInline_callScript {r : Renaming} {name : String} {args : List Expr} (hname : IsWord name)
    (hargs : ∀ e ∈ args, IsInline (e.script r).toList) :
    IsInline (callScript name (scripts r args)).toList := by
  rw [callScript]
  simp only [String.toList_append]
  exact ((hname.isInline.append (by decide)).append (newline_notMem_scripts hargs)).append
    (by decide)

theorem isInline_binary {r : Renaming} {op : BinaryOp} {left right : Expr} {t : Ty}
    (hleft : IsInline (left.script r).toList) (hright : IsInline (right.script r).toList) :
    IsInline ((binary op left right t).script r).toList := by
  have hsymbol : '\n' ∉ op.symbol.toList := by cases op <;> decide
  rw [script]
  simp only [String.toList_append]
  exact (((hleft.append (by decide)).append hsymbol).append (by decide)).append hright.line

theorem isInline_negation {operand : Expr} {text : String} (h : IsInline text.toList) :
    IsInline (negation operand text).toList := by
  unfold negation
  split
  · rw [String.toList_append]
    exact (IsInline.plain "- " (by decide) (by decide)).append h.line
  · rw [String.toList_append, String.toList_append]
    exact ((IsInline.plain "-(" (by decide) (by decide)).append h.line).append (by decide)
  · rw [String.toList_append]
    exact (IsInline.plain "-" (by decide) (by decide)).append h.line

/-- An expression over words stays on its line. -/
theorem WellTyped.isInline {e : Expr} (h : e.WellTyped Φ Γ) (hΦ : ∀ f ∈ Φ, IsWord f.name)
    (hΓ : ∀ v ∈ Γ, IsWord v.name) {r : Renaming} {before : List String} (hr : r.Records before) :
    IsInline (e.script r).toList := by
  induction h with
  | @literal a => exact a.isInline_script
  | var hv => exact ((hΓ _ (List.mem_of_find?_eq_some hv)).resolve hr).isInline
  | binary _ _ _ ihl ihr => exact isInline_binary ihl ihr
  | coalesce _ _ _ ihl ihr => exact isInline_binary ihl ihr
  | @unary e op _ _ ih =>
    cases op with
    | negate => exact isInline_negation ih
    | not =>
      rw [script, String.toList_append]
      exact .cons (by decide) (by decide) ih.line
  | array _ _ _ ih =>
    rw [script, String.toList_append, String.toList_append]
    exact (IsInline.cons (by decide) (by decide) (newline_notMem_scripts ih)).append (by decide)
  | subscript _ _ _ _ ihb ihi =>
    rw [script]
    simp only [String.toList_append]
    exact ((ihb.append (by decide)).append ihi.line).append (by decide)
  | call hf _ _ ih => exact isInline_callScript (hΦ _ hf) ih

theorem mem_subexprs_self (e : Expr) : e ∈ e.subexprs := by
  cases e <;> simp [subexprs]

end Expr

/-! ## Statements -/

theorem toList_indented (depth : Nat) (line : String) :
    (indented depth line).toList = blanks depth ++ line.toList := by
  rw [indented, String.toList_append, String.toList_ofList, blanks]

/-- A text with a semicolon behind it is the line of a simple statement. -/
theorem shownAt_line {text close : String} (depth : Nat) (htext : IsInline text.toList)
    (hclose : '\n' ∉ close.toList) (hlast : close.toList.getLast? = some ';') :
    ShownAt depth [.simple] ([indented depth (text ++ close)].map String.toList) := by
  have hne : close.toList ≠ [] := by
    intro hnil
    rw [hnil] at hlast
    cases hlast
  rw [List.map_singleton, toList_indented, String.toList_append]
  refine .simple (htext.append hclose) ?_ .nil
  rw [List.getLast?_append_of_ne_nil _ hne, hlast]

theorem isHead_append (kind : BlockKind) {middle : List Char} (h : '\n' ∉ middle) :
    IsHead kind (kind.opening ++ (middle ++ ") \x7b".toList)) where
  line := by
    rw [List.mem_append, List.mem_append, not_or, not_or]
    exact ⟨by cases kind <;> decide, h, by decide⟩
  opening := List.prefix_append _ _
  last := by
    rw [← List.append_assoc, List.getLast?_append_of_ne_nil _ (by decide)]
    rfl

/-- A block is its head, its body one step further in, and the line that closes it. -/
theorem shownAt_block {kind : BlockKind} {head : String} {body : List Form} {lines : List String}
    {depth : Nat} (hhead : IsHead kind head.toList)
    (hlines : ShownAt (depth + 1) body (lines.map String.toList)) :
    ShownAt depth [.block kind body]
      ((indented depth head :: lines ++ [indented depth "\x7d"]).map String.toList) := by
  rw [List.cons_append, List.map_cons, List.map_append, List.map_singleton, toList_indented,
    toList_indented]
  exact .block hhead hlines .nil

namespace Stmt

theorem newline_notMem_params {vs : List Variable} (h : ∀ v ∈ vs, IsWord v.name) :
    '\n' ∉ (", ".intercalate (vs.map Variable.name)).toList :=
  newline_notMem_intercalate (List.forall_mem_map.2 fun v hv => (h v hv).isInline.line)

/-- The lines of a statement show it if those of the block inside do so. -/
theorem shownAt_emit {s : Stmt} {depth : Nat} {r : Renaming} {before : List String}
    (hr : r.Records before) (hbody : ∀ depth, ShownAt depth (forms s.contents)
      ((emitAll depth r s.contents).lines.map String.toList))
    (h : ∀ e ∈ s.exprs, ∀ r before, Renaming.Records r before → IsInline (e.script r).toList)
    (hn : AllNamed IsWord [s]) :
    ShownAt depth [s.form] ((s.emit depth r).lines.map String.toList) := by
  cases s with
  | print e =>
    have he := h e (List.mem_cons_self ..) r before hr
    refine shownAt_line depth ?_ (by decide) (by decide)
    rw [String.toList_append]
    exact (IsInline.plain "console.log(" (by decide) (by decide)).append he.line
  | varDec v e =>
    have hname : IsWord v.name := hn.lets _ (List.mem_cons_self ..)
    have hgiven : IsWord (r.declare v.name).1 := hname.numbered _
    have he := h e (List.mem_cons_self ..) _ _ (hr.declare v.name)
    have hline : IsInline ("let " ++ (r.declare v.name).1 ++ " = " ++
        e.script (r.declare v.name).2).toList := by
      have hlet := (IsInline.plain "let " (by decide) (by decide)).append hgiven.isInline.line
      simp only [String.toList_append]
      exact (hlet.append (by decide)).append he.line
    exact shownAt_line depth hline (by decide) (by decide)
  | assign target source =>
    have htarget := h target (by simp [exprs]) r before hr
    have hsource := h source (by simp [exprs]) r before hr
    refine shownAt_line depth ?_ (by decide) (by decide)
    simp only [String.toList_append]
    exact (htarget.append (by decide)).append hsource.line
  | result expression =>
    have hreturn := IsInline.plain "return " (by decide) (by decide)
    refine shownAt_line depth ?_ (by decide) (by decide)
    rw [String.toList_append]
    cases expression with
    | none => exact hreturn.append List.not_mem_nil
    | some e => exact hreturn.append (h e (List.mem_cons_self ..) r before hr).line
  | call name args t =>
    have hcall := h (.call name args t) (List.mem_cons_self ..) r before hr
    exact shownAt_line depth hcall (by decide) (by decide)
  | funDec f body =>
    obtain ⟨hname, hparams⟩ := hn.functions f (by simp [functionsAll, functions])
    have hhead : ("function " ++ f.name ++ "(" ++ ", ".intercalate (f.params.map Variable.name) ++
        ") \x7b").toList = BlockKind.function.opening ++ (f.name.toList ++ ("(".toList ++
          (", ".intercalate (f.params.map Variable.name)).toList) ++ ") \x7b".toList) := by
      rw [String.toList_append, String.toList_append, String.toList_append, String.toList_append,
        List.append_assoc, List.append_assoc, List.append_assoc, List.append_assoc,
        List.append_assoc]
      rfl
    rw [contents] at hbody
    rw [emit, form]
    refine shownAt_block ?_ (hbody (depth + 1))
    rw [hhead]
    refine isHead_append .function ?_
    rw [List.mem_append, List.mem_append, not_or, not_or]
    exact ⟨hname.isInline.line, by decide, newline_notMem_params hparams⟩
  | loop test body =>
    have htest := h test (List.mem_cons_self ..) r before hr
    have hhead : ("while (" ++ test.script r ++ ") \x7b").toList =
        BlockKind.loop.opening ++ ((test.script r).toList ++ ") \x7b".toList) := by
      rw [String.toList_append, String.toList_append, List.append_assoc]
      rfl
    rw [contents] at hbody
    rw [emit, form]
    refine shownAt_block ?_ (hbody (depth + 1))
    rw [hhead]
    exact isHead_append .loop htest.line

/-- Statements are shown as their forms, at the depth where they are emitted. -/
theorem shownAt_emitAll {ss : List Stmt} (depth : Nat) {r : Renaming} {before : List String}
    (hr : r.Records before) (h : ∀ e ∈ subexprsAll ss, ∀ r before, Renaming.Records r before →
      IsInline (e.script r).toList) (hn : AllNamed IsWord ss) :
    ShownAt depth (forms ss) ((emitAll depth r ss).lines.map String.toList) := by
  induction ss using Stmt.induction (P := fun s => ∀ depth r before, Renaming.Records r before →
      (∀ e ∈ s.subexprs, ∀ r before, Renaming.Records r before → IsInline (e.script r).toList) →
        AllNamed IsWord [s] → ShownAt depth [s.form] ((s.emit depth r).lines.map String.toList))
    generalizing depth r before with
  | step s ih depth r before hr h hn =>
    obtain ⟨hexprs, hcontents⟩ := forall_mem_subexprs.1 h
    exact shownAt_emit hr (fun depth => ih depth hr hcontents hn.contents)
      (fun e he => hexprs e he e e.mem_subexprs_self) hn
  | nil => exact .nil
  | cons s ss hs ih =>
    rw [subexprsAll] at h
    obtain ⟨hfirst, hrest⟩ := List.forall_mem_append.1 h
    obtain ⟨hname, hnames⟩ := AllNamed.cons_iff.1 hn
    rw [emitAll, List.map_append]
    exact (hs depth r before hr hfirst hname).append
      (ih depth (records_emit hr depth s) hrest hnames)

end Stmt

/-! ## Programs -/

/-- The script of a program shows its forms from the left margin on. -/
theorem Program.WellTyped.shownAt_script {p : Program} (h : p.WellTyped)
    (hn : Stmt.AllNamed IsWord p.statements) (hne : p.statements ≠ []) :
    ShownAt 0 (Stmt.forms p.statements) (p.script.toList.splitOn '\n') := by
  have hinline : ∀ e ∈ p.subexprs, ∀ r before, Renaming.Records r before →
      IsInline (e.script r).toList := by
    intro e he r before hr
    obtain ⟨Φ, Γ, hwell, hΦ, hΓ⟩ := h.mem_subexprs hn he
    exact hwell.isInline hΦ hΓ hr
  have hshown := Stmt.shownAt_emitAll 0 .empty hinline hn
  have hlines : (Stmt.emitAll 0 .empty p.statements).lines.map String.toList ≠ [] := by
    refine hshown.lines_ne_nil ?_
    obtain ⟨s, ss, hss⟩ := List.exists_cons_of_ne_nil hne
    rw [hss]
    exact List.cons_ne_nil _ _
  have hnewline : "\n".toList = ['\n'] := rfl
  rwa [script, String.toList_intercalate, hnewline,
    List.splitOn_intercalate '\n' hshown.newline_notMem hlines]

/-- The lines of a script, of the program as typed or folded, show its statements: a line for each
simple one and two for each block, in order and indented by their depth. The statements can be read
from the lines, which show no others. -/
theorem Program.forms_of_script {source : String} {file : Option String} {p q : Program}
    (h : typed source file = .ok p) (hne : p.statements ≠ []) (hq : q = p ∨ q = p.fold) :
    ShownAt 0 (Stmt.forms p.statements) (q.script.toList.splitOn '\n') ∧
      (q.script.toList.splitOn '\n').length = Form.lineCountAll (Stmt.forms p.statements) ∧
      Form.read? (q.script.toList.splitOn '\n') = some (Stmt.forms p.statements) ∧
      ∀ depth forms, ShownAt depth forms (q.script.toList.splitOn '\n') →
        forms = Stmt.forms p.statements := by
  have hshown : ShownAt 0 (Stmt.forms p.statements) (q.script.toList.splitOn '\n') := by
    have htyped := wellTyped_of_typed h
    have hnamed := allNamed_of_typed h
    rcases hq with rfl | rfl
    · exact htyped.shownAt_script hnamed hne
    · have hfold : p.fold.statements ≠ [] := by
        obtain ⟨s, ss, hss⟩ := List.exists_cons_of_ne_nil hne
        rw [fold, hss]
        exact List.cons_ne_nil _ _
      rw [← Stmt.forms_foldAll]
      exact htyped.fold.1.shownAt_script hnamed.fold hfold
  refine ⟨hshown, hshown.length_eq, hshown.read?_eq, fun depth forms hforms => ?_⟩
  exact Option.some.inj (hforms.read?_eq.symm.trans hshown.read?_eq)

/-- Blocks in blocks, and a string with braces and line feeds. -/
def nestedBlocksSource : String :=
  "fun f(a: num) -> num: (while a < 2 + 3: (while true: () print(\"\\n\x7d\\n  \x7b\");) " ++
    "return a;) f(1);"

def nestedBlocksScript : String :=
  "function f(a) \x7b\n  while (a < 5) \x7b\n    while (true) \x7b\n    \x7d\n" ++
    "    console.log(\"\\n\x7d\\n  \x7b\");\n  \x7d\n  return a;\n\x7d\nf(1);"

theorem Program.forms_of_nestedBlocksScript : ∃ p, typed nestedBlocksSource none = .ok p ∧
    p.statements ≠ [] ∧ p.fold.script = nestedBlocksScript ∧
    Stmt.forms p.statements =
      [.block .function [.block .loop [.block .loop [], .simple], .simple], .simple] ∧
    ShownAt 0 (Stmt.forms p.statements) (nestedBlocksScript.toList.splitOn '\n') := by
  have hcompile : compile nestedBlocksSource none .js = .ok nestedBlocksScript := by decide +kernel
  obtain ⟨p, hp, hscript⟩ := exceptBind_eq_ok.1 hcompile
  have hscript : p.fold.script = nestedBlocksScript :=
    (exceptPure_eq_ok.1 hscript).symm
  have hne : p.statements ≠ [] := by
    intro hnil
    rw [script, fold, hnil] at hscript
    exact absurd hscript (by decide)
  obtain ⟨hshown, -, hread, -⟩ := forms_of_script hp hne (.inr rfl)
  rw [hscript] at hshown hread
  have hlines : nestedBlocksScript.toList.splitOn '\n' = ["function f(a) \x7b".toList,
      "  while (a < 5) \x7b".toList, "    while (true) \x7b".toList, "    \x7d".toList,
      "    console.log(\"\\n\x7d\\n  \x7b\");".toList, "  \x7d".toList, "  return a;".toList,
      "\x7d".toList, "f(1);".toList] := by
    decide +kernel
  rw [hlines] at hread
  exact ⟨p, hp, hne, hscript, Option.some.inj (hread.symm.trans rfl), hshown⟩

end Scriptlet
