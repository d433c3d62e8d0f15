import Scriptlet.Proofs.Outcome
import Scriptlet.Proofs.SyntaxTree.Derivation
import Scriptlet.Token.Scan

/-!
The tokens of a source. A token that stands for a sign has the text of the sign, and the token that
ends the text stands last and nowhere else.
-/

namespace Scriptlet

open Outcome

/-- The text of a sign. -/
def TokenKind.sign? : TokenKind → Option String
  | openBracket => some "["
  | closeBracket => some "]"
  | openParen => some "("
  | closeParen => some ")"
  | assignment => some "="
  | equals => some "=="
  | bang => some "!"
  | notEquals => some "!="
  | less => some "<"
  | lessEquals => some "<="
  | greater => some ">"
  | greaterEquals => some ">="
  | semicolon => some ";"
  | colon => some ":"
  | comma => some ","
  | arrow => some "->"
  | plus => some "+"
  | dash => some "-"
  | slash => some "/"
  | star => some "*"
  | starStar => some "**"
  | percent => some "%"
  | _ => none

/-- A sign has its own text. -/
def Terminal.Coherent (t : Terminal) : Prop := ∀ text, t.kind.sign? = some text → t.value = text

/-- The token that ends the text stands last and nowhere else. -/
def EndsOnce (tokens : List Token) : Prop :=
  ∃ body last, tokens = body ++ [last] ∧ last.kind = .endOfText ∧ ∀ t ∈ body, t.kind ≠ .endOfText

/-! ## One piece of text -/

theorem TokenKind.ofWord_ne {word : String} {kind : TokenKind} (h : ofWord word = kind) :
    kind.sign? = none ∧ kind ≠ .endOfText := by
  unfold ofWord at h
  split at h <;> subst h <;> exact ⟨rfl, by decide⟩

namespace Pattern

variable {p : Pattern} {cs lexeme : List Char} {n : Nat} {kind : TokenKind}

/-- The pattern that is chosen is one of the table, and it takes what is cut off. -/
theorem first?_eq_some (h : first? cs = some (p, n)) : p ∈ table ∧ p.length? cs = some n := by
  obtain ⟨q, hq, hfirst⟩ := List.exists_of_findSome?_eq_some h
  obtain ⟨m, hm, he⟩ := Option.map_eq_some_iff.1 hfirst
  cases he
  exact ⟨hq, hm⟩

theorem nonzero?_eq_some {m : Nat} (h : nonzero? m = some n) : m = n := by
  cases m with
  | zero => cases h
  | succ m => exact Option.some.inj h

theorem take_of_sign {text : List Char} (h : (sign text kind).length? cs = some n) :
    cs.take n = text := by
  rw [length?] at h
  split at h
  · next hprefix =>
    obtain ⟨rest, rfl⟩ := List.isPrefixOf_iff_prefix.1 hprefix
    rw [← nonzero?_eq_some h, List.take_left]
  · cases h

theorem sign?_of_mem_table {text : List Char} (h : sign text kind ∈ table) :
    kind.sign? = some (String.ofList text) := by
  simp only [table, List.mem_cons, reduceCtorEq, false_or, List.not_mem_nil, or_false] at h
  rcases h with h | h | h | h | h | h | h | h | h | h | h | h | h | h | h | h | h | h | h | h | h |
    h <;> cases h <;> rfl

/-- What the pieces of a text make is coherent and does not end it. -/
theorem token?_coherent {value : String} (hp : p ∈ table) (h : p.length? cs = some n)
    (ht : p.token? (cs.take n) = some (kind, value)) :
    Terminal.Coherent ⟨kind, value⟩ ∧ kind ≠ .endOfText := by
  cases p with
  | word =>
    cases ht
    obtain ⟨hsign, hend⟩ := TokenKind.ofWord_ne
      (rfl : TokenKind.ofWord (String.ofList (cs.take n)) = _)
    exact ⟨fun text h => by simp [hsign] at h, hend⟩
  | number =>
    cases ht
    exact ⟨nofun, nofun⟩
  | string =>
    cases ht
    exact ⟨nofun, nofun⟩
  | blanks => cases ht
  | comment => cases ht
  | sign text k =>
    cases ht
    have hsign := sign?_of_mem_table hp
    constructor
    · intro text' htext'
      rw [take_of_sign h]
      exact Option.some.inj (hsign.symm.trans htext')
    · rintro rfl
      cases hsign

end Pattern

/-! ## Whole texts -/

namespace Token

variable {file : String} {offset : Nat} {cs : List Char} {tokens : List Token}

theorem ofLexeme?_eq_some {p : Pattern} {lexeme : List Char} {t : Token}
    (h : ofLexeme? file offset p lexeme = some t) :
    p.token? lexeme = some (t.kind, t.value) := by
  obtain ⟨⟨kind, value⟩, ht, rfl⟩ := Option.map_eq_some_iff.1 h
  exact ht

/-- What is scanned is nothing, or a piece of text and what is scanned after it. -/
theorem scan_eq_ok (h : scan file offset cs = .ok tokens) :
    cs = [] ∧ tokens = [endOfText ⟨offset.toUInt32, file⟩] ∨
      ∃ p n rest, cs ≠ [] ∧ Pattern.first? cs = some (p, n) ∧
        scan file (offset + Text.byteLength (cs.take n)) (cs.drop n) = .ok rest ∧
        tokens = (ofLexeme? file offset p (cs.take n)).toList ++ rest := by
  cases cs with
  | nil =>
    rw [scan] at h
    cases h
    exact .inl ⟨rfl, rfl⟩
  | cons c cs =>
    rw [scan] at h
    split at h
    · cases h
    · next p n hfirst =>
      obtain ⟨rest, hrest, h⟩ := exceptBind_eq_ok.1 h
      exact .inr ⟨p, n, rest, List.cons_ne_nil c cs, hfirst, hrest, exceptPure_eq_ok.1 h⟩

/-- What holds of the token that ends a text and is kept by a piece of text in front holds of all
that is scanned. -/
theorem scan_induction {P : List Token → Prop} (hend : ∀ position, P [endOfText position])
    (hpiece : ∀ {p cs n offset rest}, p ∈ Pattern.table → p.length? cs = some n → P rest →
      P ((ofLexeme? file offset p (cs.take n)).toList ++ rest))
    (h : scan file offset cs = .ok tokens) : P tokens := by
  induction hlen : cs.length using Nat.strongRecOn generalizing offset cs tokens with
  | ind len ih =>
    rcases scan_eq_ok h with ⟨-, rfl⟩ | ⟨p, n, rest, hne, hfirst, hrest, rfl⟩
    · exact hend _
    · obtain ⟨hp, hn⟩ := Pattern.first?_eq_some hfirst
      have hshorter : (cs.drop n).length < len := by
        have hpos := Pattern.first?_pos hfirst
        have hcs := List.length_pos_iff.2 hne
        rw [List.length_drop]
        omega
      exact hpiece hp hn (ih _ hshorter hrest rfl)

/-- Every token has the text of its kind. -/
theorem scan_coherent (h : scan file offset cs = .ok tokens) :
    ∀ t ∈ tokens, t.terminal.Coherent := by
  refine scan_induction (P := fun tokens => ∀ t ∈ tokens, t.terminal.Coherent) ?_ ?_ h
  · intro position t ht
    cases List.mem_singleton.1 ht
    exact nofun
  · intro p cs n offset rest hp hn hrest t ht
    rcases List.mem_append.1 ht with ht | ht
    · have htoken := ofLexeme?_eq_some (Option.mem_toList.1 ht)
      exact (Pattern.token?_coherent hp hn htoken).1
    · exact hrest t ht

/-- The end of the text is the last token and no other. -/
theorem scan_endsOnce (h : scan file offset cs = .ok tokens) : EndsOnce tokens := by
  refine scan_induction ?_ ?_ h
  · intro position
    exact ⟨[], endOfText position, rfl, rfl, by simp⟩
  · rintro p cs n offset rest hp hn ⟨body, last, rfl, hlast, hbody⟩
    refine ⟨_ ++ body, last, (List.append_assoc ..).symm, hlast, ?_⟩
    intro t ht
    rcases List.mem_append.1 ht with ht | ht
    · have htoken := ofLexeme?_eq_some (Option.mem_toList.1 ht)
      exact (Pattern.token?_coherent hp hn htoken).2
    · exact hbody t ht

end Token

theorem tokenize_coherent {source : String} {file : Option String} {tokens : List Token}
    (h : tokenize source file = .ok tokens) :
    EndsOnce tokens ∧ ∀ t ∈ tokens.map Token.terminal, t.Coherent := by
  refine ⟨Token.scan_endsOnce h, ?_⟩
  intro t ht
  obtain ⟨token, htoken, rfl⟩ := List.mem_map.1 ht
  exact Token.scan_coherent h token htoken

end Scriptlet
