import Scriptlet.Text.Blank
import Scriptlet.Token.Basic

/-!
Patterns of tokens. A pattern matches at the start of a text or not at all, and if it does it takes
the longest piece of its shape. `Pattern.table` lists them in the order in which they are tried.
-/

namespace Scriptlet

inductive Pattern where
  /-- A letter or underscore, then letters, digits and underscores. -/
  | word
  /-- Digits, then perhaps a fraction, a power of ten and the mark `n`. -/
  | number
  | blanks
  /-- Characters of one line in double quotes, where a backslash takes the next one with it. -/
  | string
  /-- Two slashes and the rest of the line. -/
  | comment
  /-- A fixed text. -/
  | sign (text : List Char) (kind : TokenKind)
deriving DecidableEq, Repr

namespace Pattern

def isWordStart (c : Char) : Bool := c.isAlpha || c == '_'

def isWordPart (c : Char) : Bool := c.isAlphanum || c == '_'

/-- Length of the run of characters at the start that satisfy `p`. -/
def run (p : Char → Bool) (cs : List Char) : Nat := (cs.takeWhile p).length

/-- Length of a point with digits after it, zero if there is none. -/
def fractionLength : List Char → Nat
  | '.' :: cs => match run Char.isDigit cs with
    | 0 => 0
    | n + 1 => n + 2
  | _ => 0

/-- Length of the sign of a power of ten. -/
def signLength : List Char → Nat
  | '+' :: _ | '-' :: _ => 1
  | _ => 0

/-- Length of a power of ten, zero if there is none. -/
def powerLength : List Char → Nat
  | c :: cs =>
    if c = 'e' ∨ c = 'E' then
      match run Char.isDigit (cs.drop (signLength cs)) with
      | 0 => 0
      | n + 1 => signLength cs + n + 2
    else 0
  | [] => 0

/-- Length of the mark of a wide integer. -/
def wideLength : List Char → Nat
  | 'n' :: _ => 1
  | _ => 0

/-- Length of a number, zero if there is none. -/
def numberLength (cs : List Char) : Nat :=
  match run Char.isDigit cs with
  | 0 => 0
  | whole@(_ + 1) =>
    let fraction := fractionLength (cs.drop whole)
    let power := powerLength (cs.drop (whole + fraction))
    whole + fraction + power + wideLength (cs.drop (whole + fraction + power))

/-- Length of the rest of a string with its closing quote. -/
def stringLength? : List Char → Option Nat
  | [] => none
  | '"' :: _ => some 1
  | '\\' :: [] => none
  | '\\' :: c :: cs => if c = '\n' then none else (stringLength? cs).map (· + 2)
  | c :: cs => if c = '\n' then none else (stringLength? cs).map (· + 1)

/-- A length that is not zero. -/
def nonzero? : Nat → Option Nat
  | 0 => none
  | n + 1 => some (n + 1)

/-- How many characters the pattern takes at the start of the text. -/
def length? : Pattern → List Char → Option Nat
  | word, c :: cs => if isWordStart c then some (run isWordPart cs + 1) else none
  | number, cs => nonzero? (numberLength cs)
  | blanks, cs => nonzero? (run Text.isBlank cs)
  | string, '"' :: cs => (stringLength? cs).map (· + 1)
  | comment, '/' :: '/' :: cs => some (run (· ≠ '\n') cs + 2)
  | sign text _, cs => if text.isPrefixOf cs then nonzero? text.length else none
  | _, _ => none

/-- All patterns, in the order in which they are tried: a sign stands before those that begin it. -/
def table : List Pattern := [
  word, number, blanks, string, comment,
  sign ['['] .openBracket, sign [']'] .closeBracket, sign ['('] .openParen, sign [')'] .closeParen,
  sign ['=', '='] .equals, sign ['!', '='] .notEquals, sign ['!'] .bang, sign ['='] .assignment,
  sign ['<', '='] .lessEquals, sign ['<'] .less, sign ['>', '='] .greaterEquals,
  sign ['>'] .greater, sign [';'] .semicolon, sign [':'] .colon, sign [','] .comma,
  sign ['-', '>'] .arrow, sign ['+'] .plus, sign ['-'] .dash, sign ['/'] .slash,
  sign ['*', '*'] .starStar, sign ['*'] .star, sign ['%'] .percent]

/-- The first pattern that matches, and how many characters it takes. -/
def first? (cs : List Char) : Option (Pattern × Nat) :=
  table.findSome? fun p => (p.length? cs).map (p, ·)

/-- What stands for a character in a string: a known escape, or the characters themselves. -/
def unescape : List Char → List Char
  | '\\' :: c :: cs => match c with
    | 'n' => '\n' :: unescape cs
    | 't' => '\t' :: unescape cs
    | 'r' => '\r' :: unescape cs
    | '0' => '\x00' :: unescape cs
    | '\\' => '\\' :: unescape cs
    | '"' => '"' :: unescape cs
    | c => '\\' :: c :: unescape cs
  | c :: cs => c :: unescape cs
  | [] => []

/-- The kind and value of the token that a piece of text makes. Blanks and comments make none. -/
def token? (p : Pattern) (lexeme : List Char) : Option (TokenKind × String) :=
  match p with
  | word => let value := String.ofList lexeme; some (.ofWord value, value)
  | number => some (.number, String.ofList lexeme)
  | string => some (.string, String.ofList (unescape (lexeme.tail.dropLast)))
  | sign _ kind => some (kind, String.ofList lexeme)
  | blanks | comment => none

theorem nonzero?_pos {m n : Nat} (h : nonzero? m = some n) : 0 < n := by
  unfold nonzero? at h
  split at h <;> simp at h
  omega

theorem length?_pos {p : Pattern} {cs : List Char} {n : Nat} (h : p.length? cs = some n) :
    0 < n := by
  unfold length? at h
  split at h
  · split at h
    · cases h; exact Nat.succ_pos _
    · cases h
  · exact nonzero?_pos h
  · exact nonzero?_pos h
  · obtain ⟨m, _, rfl⟩ := Option.map_eq_some_iff.1 h
    exact Nat.succ_pos m
  · cases h; exact Nat.succ_pos _
  · split at h
    · exact nonzero?_pos h
    · cases h
  · cases h

theorem first?_pos {cs : List Char} {p : Pattern} {n : Nat} (h : first? cs = some (p, n)) :
    0 < n := by
  obtain ⟨q, _, hq⟩ := List.exists_of_findSome?_eq_some h
  obtain ⟨m, hm, he⟩ := Option.map_eq_some_iff.1 hq
  cases he
  exact length?_pos hm

end Pattern

end Scriptlet
