import Scriptlet.Diagnostic.Basic
import Scriptlet.Text.Bytes
import Scriptlet.Token.Pattern

/-!
Scanning: from text to tokens. At each place the first pattern of the table that matches takes its
piece; where none does, scanning fails.
-/

namespace Scriptlet

namespace Token

/-- The token of a piece of text at byte `offset`, unless it is skipped. -/
def ofLexeme? (file : String) (offset : Nat) (p : Pattern) (lexeme : List Char) : Option Token :=
  (p.token? lexeme).map fun (kind, value) =>
    ⟨kind, value, .covering file offset (Text.byteLength lexeme)⟩

/-- The tokens of the text that starts at byte `offset`, and the one that ends it. -/
def scan (file : String) (offset : Nat) (cs : List Char) : Except Diagnostic (List Token) :=
  match cs with
  | [] => .ok [endOfText ⟨offset.toUInt32, file⟩]
  | c :: cs' =>
    match _h : Pattern.first? (c :: cs') with
    | none => .error ⟨.unrecognisedToken (String.singleton c), ⟨offset.toUInt32, file⟩⟩
    | some (p, n) => do
      let lexeme := (c :: cs').take n
      let rest ← scan file (offset + Text.byteLength lexeme) ((c :: cs').drop n)
      return (ofLexeme? file offset p lexeme).toList ++ rest
termination_by cs.length
decreasing_by
  have := Pattern.first?_pos _h
  simp only [List.length_drop, List.length_cons]
  omega

/-- The name of a source that is given none. -/
def defaultFile : String := "shell"

end Token

/-- The tokens of a source. -/
def tokenize (source : String) (file : Option String) : Except Diagnostic (List Token) :=
  Token.scan (file.getD Token.defaultFile) 0 source.toList

end Scriptlet
