import Scriptlet.Proofs.Outcome
import Scriptlet.Proofs.SyntaxTree.Derivation
import Scriptlet.SyntaxTree.Parse

/-!
What reading a construct does where it succeeds. Each construct has one statement, an equivalence,
so that it serves to take a reading apart and to put one together; the proofs about readings do not
unfold the constructs again.
-/

namespace Scriptlet

open Outcome

/-! ## The terminals at a cursor -/

namespace Cursor

variable {c : Cursor}

/-- What is left to read, without places. -/
def terminals (c : Cursor) : List Terminal := (c.current :: c.upcoming).map Token.terminal

/-- The last token is the one that ends the text, so that any other one has a next. -/
def Ended (c : Cursor) : Prop := ∃ t, c.terminals.getLast? = some t ∧ t.kind = .endOfText

/-- There is always a token at a cursor. -/
theorem terminals_eq_cons (c : Cursor) :
    c.terminals = c.current.terminal :: c.upcoming.map Token.terminal := rfl

theorem length_terminals (c : Cursor) : c.terminals.length = c.remaining := by
  simp [terminals, remaining]

/-- Taking a token that does not end the text takes it off the terminals. -/
theorem Ended.take {k : TokenKind} (h : c.Ended) (hk : c.kind = k) (hne : k ≠ .endOfText) :
    c.terminals = c.current.terminal :: c.next.terminals ∧ c.next.Ended := by
  obtain ⟨t, ht, he⟩ := h
  obtain ⟨previous, current, upcoming⟩ := c
  cases upcoming with
  | nil =>
    obtain rfl : current.terminal = t := by simpa [terminals] using ht
    exact (hne (hk.symm.trans he)).elim
  | cons u us =>
    refine ⟨rfl, t, ?_, he⟩
    simpa [terminals, next] using ht

/-- A cursor at two terminals or more moves on to the second. -/
theorem next_terminals {t u : Terminal} {ts : List Terminal} (h : c.terminals = t :: u :: ts) :
    c.kind = t.kind ∧ c.current.value = t.value ∧ c.next.terminals = u :: ts := by
  obtain ⟨previous, current, upcoming⟩ := c
  cases upcoming with
  | nil => simp [terminals] at h
  | cons v vs =>
    simp only [terminals, List.map_cons, List.cons.injEq] at h
    obtain ⟨rfl, rfl, rfl⟩ := h
    exact ⟨rfl, rfl, rfl⟩

end Cursor

/-! ## Steps -/

namespace ParseM

variable {α β : Type} {c c' : Cursor}

theorem pure_bind_apply {a : α} {f : α → ParseM β} : ((pure a : ParseM α) >>= f) c = f a c := rfl

theorem get_bind_apply {f : Cursor → ParseM β} : ((get : ParseM Cursor) >>= f) c = f c c := rfl

theorem kind_bind_apply {f : TokenKind → ParseM β} : (ParseM.kind >>= f) c = f c.kind c := rfl

theorem advance_bind_apply {f : Token → ParseM β} : (advance >>= f) c = f c.current c.next := rfl

theorem throw_apply {d : Diagnostic} : (throw d : ParseM α) c = .error d c := rfl

theorem unexpected_apply : (unexpected : ParseM α) c = .error c.unexpected c := rfl

theorem unexpectedDetailed_apply {message : String} :
    (unexpectedDetailed message : ParseM α) c = .error (c.unexpectedDetailed message) c := rfl

theorem tooDeep_apply : (tooDeep : ParseM α) c = .error ⟨.nestingTooDeep, c.start⟩ c := rfl

/-- A token of the kind is taken, and any other is refused where it stands. -/
theorem expectOr_apply {k : TokenKind} {d : Diagnostic} :
    expectOr k d c = if c.kind = k then .ok c.current c.next else .error d c := by
  simp only [expectOr, kind_bind_apply]
  split <;> rfl

theorem expectOr_bind_apply {k : TokenKind} {d : Diagnostic} {f : Token → ParseM β} :
    (expectOr k d >>= f) c = if c.kind = k then f c.current c.next else .error d c := by
  change EStateM.bind (expectOr k d) f c = _
  rw [EStateM.bind, expectOr_apply]
  by_cases h : c.kind = k
  · rw [if_pos h, if_pos h]
  · rw [if_neg h, if_neg h]

theorem expect_bind_apply {k : TokenKind} {f : Token → ParseM β} :
    (expect k >>= f) c = if c.kind = k then f c.current c.next else .error c.unexpected c :=
  expectOr_bind_apply

theorem ite_error_eq_ok {P : Prop} [Decidable P] {r : EStateM.Result Diagnostic Cursor α}
    {d : Diagnostic} {a : α} :
    (if P then r else .error d c) = .ok a c' ↔ P ∧ r = .ok a c' := by
  split <;> simp [*]

end ParseM

open ParseM

namespace Parser

variable {p : Parser} {solve : Goal → ParseM Node} {c c' : Cursor} {node left : Node}

/-- The node that ends before the cursor. -/
def nodeTo (p : Parser) (rule : Rule) (start : Position) (children : List Node) (c : Cursor) :
    Node :=
  ⟨rule, p.textBetween start.offset.toNat c.previousEnd.offset.toNat, ⟨start, c.previousEnd⟩,
    children⟩

theorem shape_nodeTo {rule : Rule} (h : rule.isLeaf = false) (start : Position)
    (children : List Node) (c : Cursor) :
    (p.nodeTo rule start children c).shape = .branch rule (Node.shapes children) :=
  Node.shape_of_not_isLeaf h ..

theorem shape_leaf {rule : Rule} (h : rule.isLeaf = true) (t : Token) :
    (leaf rule t).shape = .leaf rule t.value :=
  Node.shape_of_isLeaf h ..

/-- A node ends where the cursor is, and finishing it takes no token. -/
theorem finish_eq_ok {rule : Rule} {start : Position} {children : List Node} :
    p.finish rule start children c = .ok node c' ↔
      node = p.nodeTo rule start children c ∧ c' = c := pure_eq_ok

/-! ## Lists -/

theorem commaSeparated_succ_eq_ok {item : ParseM Node} {n : Nat} {nodes : List Node} :
    commaSeparated item (n + 1) c = .ok nodes c' ↔ ∃ node c₁, item c = .ok node c₁ ∧
      (c₁.kind = .comma ∧
          (∃ rest c₂, commaSeparated item n c₁.next = .ok rest c₂ ∧ nodes = node :: rest ∧
            c' = c₂) ∨
        c₁.kind ≠ .comma ∧ nodes = [node] ∧ c' = c₁) := by
  simp only [commaSeparated, bind_eq_ok (m := item), kind_bind_apply]
  refine exists_congr fun node => exists_congr fun c₁ => and_congr_right fun _ => ?_
  by_cases h : c₁.kind = .comma
  · simp only [h, if_true, advance_bind_apply, bind_eq_ok, pure_eq_ok, true_and, ne_eq,
      not_true_eq_false, false_and, or_false]
  · simp only [h, if_false, pure_eq_ok, ne_eq, not_false_eq_true, true_and, false_and, false_or]

theorem untilClosed_succ_eq_ok {stmt : ParseM Node} {n : Nat} {nodes : List Node} :
    untilClosed stmt (n + 1) c = .ok nodes c' ↔
      c.kind = .closeParen ∧ nodes = [] ∧ c' = c ∨
        c.kind ≠ .closeParen ∧ c.kind ≠ .endOfText ∧ ∃ node c₁, stmt c = .ok node c₁ ∧
          ∃ rest c₂, untilClosed stmt n c₁ = .ok rest c₂ ∧ nodes = node :: rest ∧ c' = c₂ := by
  simp only [untilClosed, kind_bind_apply]
  generalize c.kind = k
  cases k with
  | closeParen =>
    simp only [pure_eq_ok, true_and, ne_eq, not_true_eq_false, false_and, or_false]
  | endOfText => simp [unexpectedDetailed_apply]
  | _ => simp only [bind_eq_ok, pure_eq_ok, reduceCtorEq, false_and, false_or, ne_eq,
      not_false_eq_true, true_and]

theorem untilEnd_succ_eq_ok {stmt : ParseM Node} {n : Nat} {nodes : List Node} :
    untilEnd stmt (n + 1) c = .ok nodes c' ↔
      c.kind = .endOfText ∧ nodes = [] ∧ c' = c ∨
        c.kind ≠ .endOfText ∧ ∃ node c₁, stmt c = .ok node c₁ ∧
          ∃ rest c₂, untilEnd stmt n c₁ = .ok rest c₂ ∧ nodes = node :: rest ∧ c' = c₂ := by
  simp only [untilEnd, kind_bind_apply]
  by_cases h : c.kind = .endOfText
  · simp only [h, if_true, pure_eq_ok, true_and, ne_eq, not_true_eq_false, false_and, or_false]
  · simp only [h, if_false, bind_eq_ok, pure_eq_ok, ne_eq, not_false_eq_true, true_and, false_and,
      false_or]

/-- A list in brackets is empty, or has its items between commas. There is no comma before the
closing bracket. -/
theorem exprList_eq_ok {close : TokenKind} {nodes : List Node} :
    exprList solve close c = .ok nodes c' ↔
      c.kind = close ∧ nodes = [] ∧ c' = c.next ∨
        c.kind ≠ close ∧ ∃ items c₁,
          commaSeparated (solve (.expr .default)) c.remaining c = .ok items c₁ ∧
            c₁.kind = close ∧ nodes = items ∧ c' = c₁.next := by
  simp only [exprList, kind_bind_apply]
  by_cases h : c.kind = close
  · simp only [h, if_true, pure_bind_apply, expect_bind_apply, pure_eq_ok, true_and, ne_eq,
      not_true_eq_false, false_and, or_false]
  · simp only [h, if_false, get_bind_apply, bind_eq_ok, expect_bind_apply, ite_error_eq_ok,
      pure_eq_ok, true_and, ne_eq, not_false_eq_true, false_and, false_or]

/-- Items are read one after the other, with a comma after each but the last. -/
inductive ReadsSeparated (item : ParseM Node) : Cursor → List Node → Cursor → Prop where
  | one {c c' : Cursor} {node : Node} : item c = .ok node c' → ReadsSeparated item c [node] c'
  | more {c c₁ c' : Cursor} {node : Node} {nodes : List Node} : item c = .ok node c₁ →
      c₁.kind = .comma → ReadsSeparated item c₁.next nodes c' →
      ReadsSeparated item c (node :: nodes) c'

/-- Statements are read one after the other, up to a token of the kind. -/
inductive ReadsUntil (close : TokenKind) (stmt : ParseM Node) :
    Cursor → List Node → Cursor → Prop where
  | done {c : Cursor} : c.kind = close → ReadsUntil close stmt c [] c
  | next {c c₁ c' : Cursor} {node : Node} {nodes : List Node} : stmt c = .ok node c₁ →
      ReadsUntil close stmt c₁ nodes c' → ReadsUntil close stmt c (node :: nodes) c'

/-- A list that was read is a sequence of readings, whatever bound the loop was given. -/
theorem readsSeparated_of_commaSeparated {item : ParseM Node} {n : Nat} {nodes : List Node}
    (h : commaSeparated item n c = .ok nodes c') : ReadsSeparated item c nodes c' := by
  induction n generalizing c nodes with
  | zero => simp [commaSeparated, tooDeep_apply] at h
  | succ n ih =>
    obtain ⟨node, c₁, hn, h⟩ := commaSeparated_succ_eq_ok.1 h
    rcases h with ⟨hk, rest, c₂, hr, rfl, rfl⟩ | ⟨-, rfl, rfl⟩
    · exact .more hn hk (ih hr)
    · exact .one hn

/-- A block that was read is a sequence of readings up to its closing bracket. -/
theorem readsUntil_of_untilClosed {stmt : ParseM Node} {n : Nat} {nodes : List Node}
    (h : untilClosed stmt n c = .ok nodes c') : ReadsUntil .closeParen stmt c nodes c' := by
  induction n generalizing c nodes with
  | zero => simp [untilClosed, tooDeep_apply] at h
  | succ n ih =>
    rcases untilClosed_succ_eq_ok.1 h with ⟨hk, rfl, rfl⟩ |
      ⟨-, -, node, c₁, hn, rest, c₂, hr, rfl, rfl⟩
    · exact .done hk
    · exact .next hn (ih hr)

/-- A program that was read is a sequence of readings up to the end of the text. -/
theorem readsUntil_of_untilEnd {stmt : ParseM Node} {n : Nat} {nodes : List Node}
    (h : untilEnd stmt n c = .ok nodes c') : ReadsUntil .endOfText stmt c nodes c' := by
  induction n generalizing c nodes with
  | zero => simp [untilEnd, tooDeep_apply] at h
  | succ n ih =>
    rcases untilEnd_succ_eq_ok.1 h with ⟨hk, rfl, rfl⟩ | ⟨-, node, c₁, hn, rest, c₂, hr, rfl, rfl⟩
    · exact .done hk
    · exact .next hn (ih hr)

theorem ReadsUntil.kind_eq {close : TokenKind} {stmt : ParseM Node} {nodes : List Node}
    (h : ReadsUntil close stmt c nodes c') : c'.kind = close := by
  induction h with
  | done hk => exact hk
  | next _ _ ih => exact ih

/-! ## Parts of functions and loops -/

/-- A parameter is a name, a colon and a type. -/
theorem param_eq_ok : p.param solve c = .ok node c' ↔
    c.kind = .identifier ∧ c.next.kind = .colon ∧
      ∃ type c₁, solve (.type .default) c.next.next = .ok type c₁ ∧
        node = p.nodeTo .param c.start [leaf .id c.current, type] c₁ ∧ c' = c₁ := by
  simp only [param, expect_bind_apply, ite_error_eq_ok, bind_eq_ok, finish_eq_ok]
  rfl

/-- Parameters stand in brackets, with commas between them. -/
theorem params_eq_ok : p.params solve c = .ok node c' ↔
    c.kind = .openParen ∧
      (c.next.kind = .closeParen ∧
          node = p.nodeTo .params c.start [] c.next.next ∧ c' = c.next.next ∨
        c.next.kind ≠ .closeParen ∧ ∃ items c₁,
          commaSeparated (p.param solve) c.next.remaining c.next = .ok items c₁ ∧
            c₁.kind = .closeParen ∧ node = p.nodeTo .params c.start items c₁.next ∧
              c' = c₁.next) := by
  simp only [params, expect_bind_apply, ite_error_eq_ok, kind_bind_apply]
  refine and_congr_right fun _ => ?_
  by_cases h : c.next.kind = .closeParen
  · simp only [h, if_true, pure_bind_apply, expect_bind_apply, finish_eq_ok, true_and, ne_eq,
      not_true_eq_false, false_and, or_false]
    rfl
  · simp only [h, if_false, get_bind_apply, bind_eq_ok, expect_bind_apply, ite_error_eq_ok,
      finish_eq_ok, true_and, ne_eq, not_false_eq_true, false_and, false_or]
    rfl

/-- A block is a row of statements in brackets. -/
theorem block_eq_ok : p.block solve c = .ok node c' ↔
    c.kind = .openParen ∧ ∃ statements c₁,
      untilClosed (solve .stmt) c.next.remaining c.next = .ok statements c₁ ∧
        c₁.kind = .closeParen ∧ node = p.nodeTo .block c.start statements c₁.next ∧
          c' = c₁.next := by
  simp only [block, expect_bind_apply, ite_error_eq_ok, get_bind_apply, bind_eq_ok, finish_eq_ok]
  rfl

/-! ## Expressions and types -/

theorem primary_eq_ok : primary c = .ok node c' ↔
    ∃ rule, c.kind.atomRule? = some rule ∧ node = leaf rule c.current ∧ c' = c.next := by
  simp only [primary, kind_bind_apply]
  generalize c.kind = k
  cases k <;> simp only [TokenKind.atomRule?, pure_bind_apply, advance_bind_apply, bind_eq_ok,
    unexpected_apply, pure_eq_ok, reduceCtorEq, false_and, exists_false, Option.some.injEq,
    exists_eq_left']

theorem unary_eq_ok : p.unary solve c = .ok node c' ↔
    ∃ operand c₁, solve (.expr .unary) c.next = .ok operand c₁ ∧
      node = p.nodeTo .unary c.start [leaf .op c.current, operand] c₁ ∧ c' = c₁ := by
  simp only [unary, advance_bind_apply, bind_eq_ok, finish_eq_ok]
  rfl

/-- Brackets leave no node of their own. -/
theorem grouping_eq_ok : grouping solve c = .ok node c' ↔
    ∃ inner c₁, solve (.expr .default) c.next = .ok inner c₁ ∧
      c₁.kind = .closeParen ∧ node = inner ∧ c' = c₁.next := by
  simp only [grouping, advance_bind_apply, expect_bind_apply, ite_error_eq_ok, bind_eq_ok,
    pure_eq_ok]

theorem array_eq_ok : p.array solve c = .ok node c' ↔
    ∃ elements c₁, exprList solve .closeBracket c.next = .ok elements c₁ ∧
      node = p.nodeTo .arrayLit c.start elements c₁ ∧ c' = c₁ := by
  simp only [array, advance_bind_apply, bind_eq_ok, finish_eq_ok]
  rfl

theorem namedType_eq_ok : namedType c = .ok node c' ↔
    c.kind = .identifier ∧ node = leaf .type c.current ∧ c' = c.next := by
  simp only [namedType, expect_bind_apply, ite_error_eq_ok, pure_eq_ok]

theorem binary_eq_ok {power : Power} : p.binary solve left power c = .ok node c' ↔
    ∃ right c₁, solve (.expr power) c.next = .ok right c₁ ∧
      node = p.nodeTo .binary left.start [left, leaf .op c.current, right] c₁ ∧ c' = c₁ := by
  simp only [binary, advance_bind_apply, bind_eq_ok, finish_eq_ok]

/-- After a comparison there is no second one: the comparisons do not associate. -/
theorem comparison_eq_ok {power : Power} : p.comparison solve left power c = .ok node c' ↔
    p.binary solve left power c = .ok node c' ∧ c'.kind.isRelational = false := by
  simp only [comparison, bind_eq_ok, kind_bind_apply]
  constructor
  · rintro ⟨node, c₁, hb, h⟩
    split at h
    · simp [unexpectedDetailed_apply] at h
    · next hk =>
      obtain ⟨rfl, rfl⟩ := pure_eq_ok.1 h
      exact ⟨hb, by simpa using hk⟩
  · rintro ⟨hb, hk⟩
    exact ⟨node, c', hb, by simp [hk, pure_eq_ok]⟩

/-- Only a name can be called. -/
theorem call_eq_ok : p.call solve left c = .ok node c' ↔
    left.rule = .id ∧ ∃ arguments c₁, exprList solve .closeParen c.next = .ok arguments c₁ ∧
      node = p.nodeTo .call left.start (left :: arguments) c₁ ∧ c' = c₁ := by
  simp only [call]
  by_cases h : left.rule = .id
  · simp only [h, if_true, advance_bind_apply, bind_eq_ok, finish_eq_ok, true_and]
  · simp [h, unexpectedDetailed_apply]

theorem subscript_eq_ok : p.subscript solve left c = .ok node c' ↔
    ∃ index c₁, solve (.expr .default) c.next = .ok index c₁ ∧ c₁.kind = .closeBracket ∧
      node = p.nodeTo .subscript left.start [left, index] c₁.next ∧ c' = c₁.next := by
  simp only [subscript, advance_bind_apply, expect_bind_apply, ite_error_eq_ok, bind_eq_ok,
    finish_eq_ok]

theorem arrayType_eq_ok : p.arrayType left c = .ok node c' ↔
    c.kind = .openBracket ∧ c.next.kind = .closeBracket ∧
      node = p.nodeTo .arrayType left.start [left] c.next.next ∧ c' = c.next.next := by
  simp only [arrayType, expect_bind_apply, ite_error_eq_ok, finish_eq_ok]

/-! ## Statements -/

theorem declaration_eq_ok : p.declaration solve c = .ok node c' ↔
    c.next.kind = .identifier ∧ c.next.next.kind = .assignment ∧
      ∃ initializer c₁, solve (.expr .default) c.next.next.next = .ok initializer c₁ ∧
        c₁.kind = .semicolon ∧
        node = p.nodeTo .varDec c.start [leaf .id c.next.current, initializer] c₁.next ∧
        c' = c₁.next := by
  simp only [declaration, advance_bind_apply, get_bind_apply, expectOr_bind_apply,
    expect_bind_apply, ite_error_eq_ok, bind_eq_ok, finish_eq_ok]
  rfl

theorem print_eq_ok : p.print solve c = .ok node c' ↔
    c.next.kind = .openParen ∧ ∃ argument c₁, solve (.expr .default) c.next.next = .ok argument c₁ ∧
      c₁.kind = .closeParen ∧ c₁.next.kind = .semicolon ∧
      node = p.nodeTo .printStmt c.start [argument] c₁.next.next ∧ c' = c₁.next.next := by
  simp only [print, advance_bind_apply, expect_bind_apply, ite_error_eq_ok, bind_eq_ok,
    finish_eq_ok]
  rfl

theorem loop_eq_ok : p.loop solve c = .ok node c' ↔
    ∃ test c₁, solve (.expr .default) c.next = .ok test c₁ ∧ c₁.kind = .colon ∧
      ∃ body c₂, p.block solve c₁.next = .ok body c₂ ∧
        node = p.nodeTo .whileStmt c.start [test, body] c₂ ∧ c' = c₂ := by
  simp only [loop, advance_bind_apply, expect_bind_apply, ite_error_eq_ok, bind_eq_ok, finish_eq_ok]
  rfl

theorem result_eq_ok : p.result solve c = .ok node c' ↔
    c.next.kind = .semicolon ∧ node = p.nodeTo .returnStmt c.start [] c.next.next ∧
        c' = c.next.next ∨
      c.next.kind ≠ .semicolon ∧ ∃ value c₁, solve (.expr .default) c.next = .ok value c₁ ∧
        c₁.kind = .semicolon ∧ node = p.nodeTo .returnStmt c.start [value] c₁.next ∧
        c' = c₁.next := by
  simp only [result, advance_bind_apply, kind_bind_apply]
  by_cases h : c.next.kind = .semicolon
  · simp only [h, if_true, pure_bind_apply, expect_bind_apply, finish_eq_ok, true_and, ne_eq,
      not_true_eq_false, false_and, or_false]
    rfl
  · simp only [h, if_false, bind_eq_ok (m := solve _), pure_bind_apply, expect_bind_apply,
      ite_error_eq_ok, finish_eq_ok, true_and, ne_eq, not_false_eq_true, false_and, false_or]
    rfl

/-- A function is a name, parameters, perhaps an arrow with a type, a colon and a block. -/
theorem function_eq_ok : p.function solve c = .ok node c' ↔
    c.next.kind = .identifier ∧ ∃ params c₁, p.params solve c.next.next = .ok params c₁ ∧
      ∃ type c₂, (c₁.kind = .arrow ∧
            (∃ t c₃, solve (.type .default) c₁.next = .ok t c₃ ∧ type = [t] ∧ c₂ = c₃) ∨
          c₁.kind ≠ .arrow ∧ type = [] ∧ c₂ = c₁) ∧
        c₂.kind = .colon ∧ ∃ body c₃, p.block solve c₂.next = .ok body c₃ ∧
          node = p.nodeTo .funDec c.start (leaf .id c.next.current :: params :: type ++ [body]) c₃ ∧
          c' = c₃ := by
  simp only [function, advance_bind_apply, expect_bind_apply, ite_error_eq_ok,
    bind_eq_ok (m := p.params solve), kind_bind_apply]
  refine and_congr_right fun _ => exists_congr fun params => exists_congr fun c₁ =>
    and_congr_right fun _ => ?_
  by_cases h : c₁.kind = .arrow
  · simp only [h, if_true, advance_bind_apply, bind_eq_ok (m := solve _), pure_bind_apply,
      expect_bind_apply, ite_error_eq_ok, bind_eq_ok (m := p.block solve), finish_eq_ok]
    constructor
    · rintro ⟨t, c₂, ht, hb⟩
      exact ⟨[t], c₂, .inl ⟨trivial, t, c₂, ht, rfl, rfl⟩, hb⟩
    · rintro ⟨_, _, ⟨-, t, c₂, ht, rfl, rfl⟩ | ⟨h, -⟩, hb⟩
      · exact ⟨t, _, ht, hb⟩
      · exact (h rfl).elim
  · simp only [h, if_false, pure_bind_apply, expect_bind_apply, ite_error_eq_ok,
      bind_eq_ok (m := p.block solve), finish_eq_ok]
    constructor
    · exact fun hb => ⟨[], c₁, .inr ⟨h, rfl, rfl⟩, hb⟩
    · rintro ⟨_, _, ⟨ha, -⟩ | ⟨-, rfl, rfl⟩, hb⟩
      · exact ha.elim
      · exact hb

/-- A statement that starts with no word of its own is an assignment or a call, by what follows the
expression. -/
theorem simpleStatement_eq_ok : p.simpleStatement solve c = .ok node c' ↔
    ∃ expr c₁, solve (.expr .default) c = .ok expr c₁ ∧
      (c₁.kind = .assignment ∧ (expr.rule = .id ∨ expr.rule = .subscript) ∧
          (∃ source c₂, solve (.expr .default) c₁.next = .ok source c₂ ∧ c₂.kind = .semicolon ∧
            node = p.nodeTo .assignStmt expr.start [expr, source] c₂.next ∧ c' = c₂.next) ∨
        c₁.kind ≠ .assignment ∧ expr.rule = .call ∧ c₁.kind = .semicolon ∧
          node = p.nodeTo .callStmt expr.start [expr] c₁.next ∧ c' = c₁.next) := by
  simp only [simpleStatement, bind_eq_ok (m := solve _), kind_bind_apply]
  refine exists_congr fun expr => exists_congr fun c₁ => and_congr_right fun _ => ?_
  by_cases h : c₁.kind = .assignment
  · by_cases ht : expr.rule = .id ∨ expr.rule = .subscript
    · simp only [h, ht, if_true, advance_bind_apply, bind_eq_ok (m := solve _), expect_bind_apply,
        ite_error_eq_ok, finish_eq_ok, true_and, ne_eq, not_true_eq_false, false_and, or_false]
    · simp [h, ht, throw_apply]
  · by_cases hc : expr.rule = .call
    · simp only [h, hc, if_false, if_true, expect_bind_apply, ite_error_eq_ok, finish_eq_ok,
        true_and, ne_eq, not_false_eq_true, false_and, false_or]
    · simp [h, hc, throw_apply]

/-! ## Operators around an operand -/

/-- One round of the loop: an operator that binds tighter is taken, and any other ends the
expression. -/
theorem extend_succ_eq_ok {ops : Operators} {power : Power} {n : Nat} :
    p.extend solve ops power (n + 1) left c = .ok node c' ↔
      power < ops.power c.kind ∧ (∃ t, ops.trailing c.kind = some t ∧
          ∃ next c₁, p.trailing solve left (ops.power c.kind) t c = .ok next c₁ ∧
            p.extend solve ops power n next c₁ = .ok node c') ∨
        ¬power < ops.power c.kind ∧ node = left ∧ c' = c := by
  simp only [extend, kind_bind_apply]
  by_cases h : power < ops.power c.kind
  · cases ht : ops.trailing c.kind with
    | none => simp [h, unexpected_apply]
    | some t => simp [h, bind_eq_ok]
  · simp [h, pure_eq_ok]

/-- Constructs are read that continue the node to the left, each at a token that binds tighter than
`power`, up to one that does not. -/
inductive Continues (p : Parser) (solve : Goal → ParseM Node) (ops : Operators) (power : Power) :
    Node → Cursor → Node → Cursor → Prop where
  | done {left : Node} {c : Cursor} : ¬power < ops.power c.kind →
      Continues p solve ops power left c left c
  | next {left next node : Node} {c c₁ c' : Cursor} {t : Trailing} : power < ops.power c.kind →
      ops.trailing c.kind = some t →
      p.trailing solve left (ops.power c.kind) t c = .ok next c₁ →
      Continues p solve ops power next c₁ node c' → Continues p solve ops power left c node c'

/-- The rounds of the loop as a sequence, whatever bound it was given. -/
theorem continues_of_extend {ops : Operators} {power : Power} {n : Nat}
    (h : p.extend solve ops power n left c = .ok node c') :
    p.Continues solve ops power left c node c' := by
  induction n generalizing left c with
  | zero => simp [extend, tooDeep_apply] at h
  | succ n ih =>
    rcases extend_succ_eq_ok.1 h with ⟨hp, t, ht, next, c₁, hn, h⟩ | ⟨hp, rfl, rfl⟩
    · exact .next hp ht hn (ih h)
    · exact .done hp

/-- An expression starts with an operand, and goes on with the operators after it. -/
theorem operand_eq_ok {ops : Operators} {power : Power} :
    p.operand solve ops power c = .ok node c' ↔
      ∃ l, ops.leading c.kind = some l ∧ ∃ first c₁, p.leading solve l c = .ok first c₁ ∧
        p.extend solve ops power c₁.remaining first c₁ = .ok node c' := by
  simp only [operand, kind_bind_apply]
  cases ops.leading c.kind with
  | none => simp [unexpected_apply]
  | some l => simp [bind_eq_ok, get_bind_apply]

/-- The first token says which statement it is. -/
theorem statement_eq_ok : p.statement solve c = .ok node c' ↔
    (∃ l, p.grammar.statement c.kind = some l ∧ p.leading solve l c = .ok node c') ∨
      p.grammar.statement c.kind = none ∧ p.simpleStatement solve c = .ok node c' := by
  simp only [statement, kind_bind_apply]
  cases p.grammar.statement c.kind with
  | none => simp
  | some l => simp

theorem program_eq_ok : p.program c = .ok node c' ↔
    ∃ statements, ParseM.untilEnd (p.run (depth c) .stmt) c.remaining c = .ok statements c' ∧
      node = p.nodeTo .program ⟨0, c.start.file⟩ statements c' := by
  simp only [program, get_bind_apply, bind_eq_ok, finish_eq_ok]
  constructor
  · rintro ⟨statements, c₁, h, rfl, rfl⟩
    exact ⟨statements, h, rfl⟩
  · rintro ⟨statements, h, rfl⟩
    exact ⟨statements, c', h, rfl, rfl⟩

theorem program_eq_error {d : Diagnostic} : p.program c = .error d c' ↔
    ParseM.untilEnd (p.run (depth c) .stmt) c.remaining c = .error d c' := by
  simp only [program, get_bind_apply, bind_eq_error]
  constructor
  · rintro (h | ⟨statements, c₁, -, h⟩)
    · exact h
    · cases h
  · exact .inl

end Parser

theorem parse_eq_ok {tokens : List Token} {source : String} {node : Node} :
    parse tokens source = .ok node ↔
      ∃ c, (⟨.standard, source.toList⟩ : Parser).program (.ofTokens tokens) = .ok node c := by
  simp only [parse]
  cases (⟨.standard, source.toList⟩ : Parser).program (.ofTokens tokens) with
  | ok n c => simp
  | error d c => simp

theorem parse_eq_error {tokens : List Token} {source : String} {d : Diagnostic} :
    parse tokens source = .error d ↔
      ∃ c, (⟨.standard, source.toList⟩ : Parser).program (.ofTokens tokens) = .error d c := by
  simp only [parse]
  cases (⟨.standard, source.toList⟩ : Parser).program (.ofTokens tokens) with
  | ok n c => simp
  | error d c => simp

end Scriptlet
